import ChessAnalytics.Games.EvaluateGame

/-! What the table of a game says: the numbers of the plies that end the game, and the rows of the
print against the rows of the file. -/
namespace ChessAnalytics.Games
open Strings Chess Systems Pgn

section
variable {R : Rules} (infos : Infos)

/-- The verdict of a position that ends the game: the side to move is mated, or nobody is. -/
def finalVerdict (board : R.Board) : PovScore := ⟨if R.isCheckmate board then .mate 0 else .cp 0, R.turn board⟩

def verdictAt (score : Nat → PovScore) (g : Game R.toPyChess) (k : Nat) : PovScore :=
  if overAt g k then finalVerdict (boardAt g (k + 1)) else score k

/-- The numbers that the ply appends are those of its verdicts. -/
def AppendsVerdict (g : Game R.toPyChess) (k : Nat) : Prop :=
  (evals infos g).1.sfCps[k]? = some (whitePawns (verdictAt infos.sf g k)) ∧
    (evals infos g).1.lc0Cps[k]? = some (whitePawns (verdictAt infos.lc0 g k))

/-- Whoever is mated, the number of the verdict is not the one that is appended. -/
theorem whitePawns_mated (turn : Color) : whitePawns ⟨.mate 0, turn⟩ ≠ 10000 := by
  cases turn <;> norm_num [whitePawns, PovScore.white, Score.neg, Score.score, mateScore]

theorem whitePawns_drawn (turn : Color) : whitePawns ⟨.cp 0, turn⟩ = 0 := by
  cases turn <;> norm_num [whitePawns, PovScore.white, Score.neg, Score.score]

theorem numberAt_iff (score : Nat → PovScore) (g : Game R.toPyChess) (k : Nat) :
    numberAt score g k = whitePawns (verdictAt score g k) ↔
      (overAt g k = true → R.isCheckmate (boardAt g (k + 1)) = false) := by
  rw [numberAt, verdictAt]
  cases overAt g k with
  | false => simp
  | true =>
    rw [if_pos rfl, if_pos rfl, finalVerdict]
    cases R.isCheckmate (boardAt g (k + 1)) with
    | false => simpa using (whitePawns_drawn _).symm
    | true => simpa using (whitePawns_mated _).symm

private theorem appendsVerdict_iff {g : Game R.toPyChess} {k : Nat} (hk : k < reached g) :
    AppendsVerdict infos g k ↔ (overAt g k = true → R.isCheckmate (boardAt g (k + 1)) = false) := by
  have hsf : (evalsAt infos g (reached g)).sfCps[k]? = some (numberAt infos.sf g k) := by
    rw [evalsAt, List.getElem?_map, List.getElem?_range hk]
    rfl
  have hlc0 : (evalsAt infos g (reached g)).lc0Cps[k]? = some (numberAt infos.lc0 g k) := by
    rw [evalsAt, List.getElem?_map, List.getElem?_range hk]
    rfl
  rw [AppendsVerdict, evals_eq, hsf, hlc0, Option.some_inj, Option.some_inj, numberAt_iff, numberAt_iff, and_self]

/-- A ply that the loop gets to appends the numbers of its verdicts exactly if it does not give
checkmate, and the two lists of a run are the numbers of the verdicts exactly if no ply does. -/
theorem one_scale_iff (g : Game R.toPyChess) :
    (∀ k < reached g, AppendsVerdict infos g k ↔ (overAt g k = true → R.isCheckmate (boardAt g (k + 1)) = false)) ∧
    ((evals infos g).1.sfCps = (List.range (reached g)).map (fun k => whitePawns (verdictAt infos.sf g k)) ∧
        (evals infos g).1.lc0Cps = (List.range (reached g)).map (fun k => whitePawns (verdictAt infos.lc0 g k)) ↔
      ∀ k < reached g, overAt g k = true → R.isCheckmate (boardAt g (k + 1)) = false) := by
  refine ⟨fun k hk => appendsVerdict_iff infos hk, ?_⟩
  have hlist (score : Nat → PovScore) : (List.range (reached g)).map (numberAt score g) =
      (List.range (reached g)).map (fun k => whitePawns (verdictAt score g k)) ↔
        ∀ k < reached g, overAt g k = true → R.isCheckmate (boardAt g (k + 1)) = false := by
    rw [List.map_inj_left]
    simp only [List.mem_range, numberAt_iff]
  rw [evals_eq]
  exact ⟨fun h => (hlist _).mp h.1, fun h => ⟨(hlist _).mpr h, (hlist _).mpr h⟩⟩

/-- The full move and the side to move, as the labels write them. -/
def moveLabel (board : R.Board) : Str := showNat (R.fullmoveNumber board) ++ dotOf (R.turn board)

/-- The lists cover the game, and the printed row of every ply and its saved row have the label of
the position before the move and the same move text. -/
structure Complete (g : Game R.toPyChess) (r : Report) : Prop where
  sfCps : r.evals.sfCps.length = g.mainlineMoves.length
  lc0Cps : r.evals.lc0Cps.length = g.mainlineMoves.length
  labels : r.evals.labels.length = g.mainlineMoves.length
  rows : ∀ i < g.mainlineMoves.length, ∃ printed saved, r.evals.rows[i]? = some printed ∧ r.saved[i]? = some saved ∧
    printed.label = saved.label ∧ printed.san = saved.san ∧ printed.label = moveLabel (boardAt g i)

theorem label_inj {m n : Nat} {c d : Color} : showNat m ++ dotOf c = showNat n ++ dotOf d ↔ m = n ∧ c = d := by
  constructor
  · intro h
    obtain ⟨hnumber, hdot⟩ := List.append_inj' h (by cases c <;> cases d <;> rfl)
    refine ⟨showNat_injective hnumber, ?_⟩
    cases c <;> cases d <;> first | rfl | (revert hdot; decide)
  · rintro ⟨rfl, rfl⟩
    rfl

private theorem maxPair_mem {x : ℚ × Nat} {xs : List (ℚ × Nat)} (h : maxPair xs = some x) : x ∈ xs := by
  cases xs with
  | nil => cases h
  | cons y xs =>
    obtain rfl := Option.some_inj.mp h
    clear h
    induction xs generalizing y with
    | nil => exact List.mem_cons_self
    | cons z xs ih =>
      have hlater : laterPair y z = y ∨ laterPair y z = z := by
        rw [laterPair]
        split
        · exact .inr rfl
        · exact .inl rfl
      rcases List.mem_cons.mp (ih (laterPair y z)) with heq | hmem
      · rw [List.foldl_cons, heq]
        rcases hlater with h | h <;> rw [h] <;> simp
      · exact List.mem_cons_of_mem _ (List.mem_cons_of_mem _ hmem)

private theorem swings_index {cps : List ℚ} {x : ℚ × Nat} (h : x ∈ swings cps) : x.2 < cps.length := by
  obtain ⟨⟨y, i⟩, hy, rfl⟩ := List.mem_map.mp h
  have hi := (List.getElem?_eq_some_iff.mp (List.mem_zipIdx_iff_getElem?.mp hy)).1
  rw [List.length_zip, List.length_tail] at hi
  change i + 1 < cps.length
  omega

private theorem summary_ok {t : Evals} (hlen : 2 ≤ t.sfCps.length) (hlc0 : t.lc0Cps.length = t.sfCps.length)
    (hlabels : t.labels.length = t.sfCps.length) : ∃ s, summary t = .ok s := by
  have hextreme (xs : List ℚ) (hxs : xs.length = t.sfCps.length) :
      (∃ a, xs.max? = some a) ∧ ∃ b, xs.min? = some b := by
    cases xs with
    | nil => simp at hxs; omega
    | cons x xs => exact ⟨⟨_, rfl⟩, ⟨_, rfl⟩⟩
  obtain ⟨⟨whiteSf, hwhite⟩, blackSf, hblack⟩ := hextreme t.sfCps rfl
  obtain ⟨⟨whiteLc0, hwhite'⟩, blackLc0, hblack'⟩ := hextreme t.lc0Cps hlc0
  obtain ⟨swing, hswing⟩ : ∃ swing, maxPair (swings t.sfCps) = some swing := by
    match hsf : t.sfCps, hlen with
    | _ :: _ :: _, _ => exact ⟨_, rfl⟩
  have hindex : swing.2 < t.labels.length := hlabels ▸ swings_index (maxPair_mem hswing)
  simp only [summary, hwhite, hwhite', hblack, hblack', hswing, orRaise, bind, Except.bind,
    List.getElem?_eq_getElem hindex]
  exact ⟨_, rfl⟩

private theorem summary_short {t : Evals} (hlen : t.sfCps.length < 2) : ∃ e, summary t = .error e := by
  rw [summary]
  cases hsf : t.sfCps with
  | nil => exact ⟨_, rfl⟩
  | cons sf sfCps =>
    obtain rfl : sfCps = [] := by
      rw [hsf] at hlen
      exact List.eq_nil_of_length_eq_zero (by simpa using hlen)
    cases t.lc0Cps with
    | nil => exact ⟨_, rfl⟩
    | cons lc0 lc0Cps => exact ⟨_, rfl⟩

private theorem replaySans_from (board : R.Board) (moves : List R.Move) (i : Nat) :
    (List.zipWith R.san (replayBoards board moves) moves)[i]? =
      moves[i]?.map (R.san ((moves.take i).foldl R.push board)) := by
  induction moves generalizing board i with
  | nil => simp
  | cons move moves ih =>
    cases i with
    | zero => rfl
    | succ i =>
      rw [replayBoards, List.zipWith_cons_cons, List.getElem?_cons_succ, ih]
      rfl

theorem replaySans_getElem (g : Game R.toPyChess) (i : Nat) :
    (replaySans g)[i]? = g.mainlineMoves[i]?.map (R.san (boardAt g i)) :=
  replaySans_from g.board g.mainlineMoves i

private theorem saved_getElem {g : Game R.toPyChess} {k i : Nat} {move : R.Move} (hi : i < k)
    (hmove : g.mainlineMoves[i]? = some move) :
    (savedRows (evalsAt infos g k).labels (replaySans g) (evalsAt infos g k).sfCps (evalsAt infos g k).lc0Cps)[i]? =
      some (savedRow (labelAt g i) (R.san (boardAt g i) move) (numberAt infos.sf g i) (numberAt infos.lc0 g i)) := by
  have hrange (α : Type) (f : Nat → α) : ((List.range k).map f)[i]? = some (f i) := by
    rw [List.getElem?_map, List.getElem?_range hi]
    rfl
  have hsan := replaySans_getElem g i
  rw [hmove] at hsan
  have hlabels : (((List.range k).map (labelAt g)).zip (replaySans g))[i]? =
      some (labelAt g i, R.san (boardAt g i) move) := List.getElem?_zip_eq_some.mpr ⟨hrange _ _, hsan⟩
  have hcps : (((List.range k).map (numberAt infos.sf g)).zip ((List.range k).map (numberAt infos.lc0 g)))[i]? =
      some (numberAt infos.sf g i, numberAt infos.lc0 g i) := List.getElem?_zip_eq_some.mpr ⟨hrange _ _, hrange _ _⟩
  have hzip := List.getElem?_zip_eq_some (z := ((labelAt g i, R.san (boardAt g i) move),
    (numberAt infos.sf g i, numberAt infos.lc0 g i))).mpr ⟨hlabels, hcps⟩
  rw [savedRows, List.getElem?_map]
  exact congrArg (Option.map _) hzip

private theorem rows_getElem {g : Game R.toPyChess} (hfirst : overAt g 0 = false) {k i : Nat}
    (hk : k ≤ g.mainlineMoves.length) (hi : i < k) : (evalsAt infos g k).rows[i]? = printedRow infos g i := by
  have hevery : ∀ j ∈ List.range k, printedRow infos g j ≠ none := by
    intro j hj
    have hlt : j < g.mainlineMoves.length := (List.mem_range.mp hj).trans_le hk
    rw [printedRow, List.getElem?_eq_getElem hlt, Option.bind_some]
    split
    · rename_i hover
      cases j with
      | zero => exact absurd (hfirst.symm.trans hover) Bool.false_ne_true
      | succ j => simpa using dotBefore_isSome hfirst j
    · simp
  rw [evalsAt, getElem?_filterMap hevery, List.getElem?_range hi]
  rfl

private theorem printedRow_eq {g : Game R.toPyChess} {i : Nat} {row : TableRow} (h : printedRow infos g i = some row) :
    g.mainlineMoves[i]?.map (R.san (boardAt g i)) = some row.san ∧
      if overAt g i then ∃ dot, dotBefore g i = some dot ∧ row.label = showNat (i / 2 + 1) ++ dot
      else row.label = labelAt g i := by
  rw [printedRow] at h
  obtain ⟨move, hmove, hrow⟩ := Option.bind_eq_some_iff.mp h
  rw [hmove]
  split at hrow
  · rename_i hover
    obtain ⟨dot, hdot, rfl⟩ := Option.map_eq_some_iff.mp hrow
    rw [if_pos hover]
    exact ⟨rfl, dot, hdot, rfl⟩
  · rename_i hover
    obtain rfl := Option.some_inj.mp hrow
    rw [if_neg hover]
    exact ⟨rfl, rfl⟩

private theorem run_ok_iff {g : Game R.toPyChess} {r : Report} : run infos g = .ok r ↔
    overAt g 0 = false ∧ 2 ≤ g.mainlineMoves.length ∧ ∃ s, summary (evalsAt infos g g.mainlineMoves.length) = .ok s ∧
      r = ⟨evalsAt infos g g.mainlineMoves.length, s,
        savedRows (evalsAt infos g g.mainlineMoves.length).labels (replaySans g)
          (evalsAt infos g g.mainlineMoves.length).sfCps (evalsAt infos g g.mainlineMoves.length).lc0Cps⟩ := by
  constructor
  · intro h
    have hraise : ¬ (overAt g 0 = true ∧ g.mainlineMoves ≠ []) := by
      intro hraise
      rw [run, evals_eq, if_pos hraise] at h
      cases h
    rw [run, evals_eq, if_neg hraise] at h
    have hlong : 2 ≤ g.mainlineMoves.length := by
      by_contra hshort
      have hle : reached g ≤ g.mainlineMoves.length := by
        rw [reached]
        split <;> omega
      obtain ⟨e, he⟩ := summary_short (t := evalsAt infos g (reached g)) (by simp [evalsAt]; omega)
      simp only [he] at h
      cases h
    have hfirst : overAt g 0 = false := by
      by_contra hover
      exact hraise ⟨by simpa using hover, List.ne_nil_of_length_pos (by omega)⟩
    refine ⟨hfirst, hlong, ?_⟩
    rw [reached, hfirst] at h
    cases hs : summary (evalsAt infos g g.mainlineMoves.length) with
    | error e =>
      simp only [Bool.false_eq_true, if_false, hs] at h
      cases h
    | ok s =>
      simp only [Bool.false_eq_true, if_false, hs] at h
      exact ⟨s, rfl, (Except.ok.inj h).symm⟩
  · rintro ⟨hfirst, -, s, hs, rfl⟩
    rw [run, evals_eq, reached, hfirst]
    simp only [Bool.false_eq_true, false_and, if_false, hs]

private theorem boardAt_normal {g : Game R.toPyChess} (hturn : R.turn g.board = .white)
    (hfull : R.fullmoveNumber g.board = 1) {i : Nat} (hi : i ≤ g.mainlineMoves.length) :
    R.fullmoveNumber (boardAt g i) = i / 2 + 1 ∧ R.turn (boardAt g i) = if i % 2 = 0 then .white else .black := by
  induction i with
  | zero => exact ⟨hfull, hturn⟩
  | succ i ih =>
    obtain ⟨hnumber, hside⟩ := ih (by omega)
    have hget : g.mainlineMoves[i]? = some g.mainlineMoves[i] := List.getElem?_eq_getElem hi
    rw [boardAt_succ hget, R.fullmove_push, R.turn_push, hnumber, hside]
    by_cases heven : i % 2 = 0
    · have hodd : ¬ (i + 1) % 2 = 0 := by omega
      rw [if_pos heven, if_neg hodd, if_neg (by decide)]
      exact ⟨by omega, rfl⟩
    · have hnext : (i + 1) % 2 = 0 := by omega
      rw [if_neg heven, if_pos hnext, if_pos rfl]
      exact ⟨by omega, rfl⟩

private theorem labelAt_normal {g : Game R.toPyChess} (hturn : R.turn g.board = .white)
    (hfull : R.fullmoveNumber g.board = 1) {i : Nat} (hi : i ≤ g.mainlineMoves.length) :
    labelAt g i = moveLabel (boardAt g i) := by
  rw [labelAt, moveLabel, (boardAt_normal hturn hfull hi).1]

private theorem complete_ply {g : Game R.toPyChess} {r : Report} (hrun : run infos g = .ok r) (hr : Complete g r) {i : Nat}
    (hi : i < g.mainlineMoves.length) :
    labelAt g i = moveLabel (boardAt g i) ∧ ∀ dot, overAt g i = true → dotBefore g i = some dot →
      showNat (i / 2 + 1) ++ dot = labelAt g i := by
  obtain ⟨hfirst, -, s, -, rfl⟩ := (run_ok_iff infos).mp hrun
  obtain ⟨printed, saved, hprinted, hsaved, hlabel, -, hmove⟩ := hr.rows i hi
  rw [saved_getElem infos hi (List.getElem?_eq_getElem hi)] at hsaved
  rw [rows_getElem infos hfirst le_rfl hi] at hprinted
  obtain rfl := Option.some_inj.mp hsaved
  refine ⟨hlabel.symm.trans hmove, fun dot hover hdot => ?_⟩
  have hprintedLabel := (printedRow_eq infos hprinted).2
  rw [if_pos hover] at hprintedLabel
  obtain ⟨dot', hdot', heq⟩ := hprintedLabel
  obtain rfl := Option.some_inj.mp (hdot.symm.trans hdot')
  exact heq.symm.trans hlabel

private theorem not_over {g : Game R.toPyChess} {r : Report} (hrun : run infos g = .ok r) (hr : Complete g r) {k : Nat}
    (hk : k < g.mainlineMoves.length) : overAt g k = false := by
  induction k with
  | zero => exact ((run_ok_iff infos).mp hrun).1
  | succ k ih =>
    have hprev := ih (by omega)
    by_contra hover
    have hdot : dotBefore g (k + 1) = some (dotOf (R.turn (boardAt g k))) := by
      rw [dotBefore, hprev, if_neg Bool.false_ne_true]
    have hlabel := (complete_ply infos hrun hr hk).2 _ (by simpa using hover) hdot
    have hturn := (label_inj.mp hlabel).2
    have hget : g.mainlineMoves[k]? = some g.mainlineMoves[k] := List.getElem?_eq_getElem (by omega)
    rw [boardAt_succ hget, R.turn_push] at hturn
    exact Chess.Color.other_ne _ hturn.symm

/-- The run ends with a complete table exactly if the game has at least two half-moves, starts with
White to move in full move 1, and none of its moves ends the game. -/
theorem complete_iff (g : Game R.toPyChess) : (∃ r, run infos g = .ok r ∧ Complete g r) ↔
    2 ≤ g.mainlineMoves.length ∧ R.turn g.board = .white ∧ R.fullmoveNumber g.board = 1 ∧
      ∀ k < g.mainlineMoves.length, R.isGameOver (boardAt g (k + 1)) = false := by
  constructor
  · rintro ⟨r, hrun, hr⟩
    have hlen := ((run_ok_iff infos).mp hrun).2.1
    have hnumber (i : Nat) (hi : i < g.mainlineMoves.length) : i / 2 + 1 = R.fullmoveNumber (boardAt g i) :=
      (label_inj.mp (complete_ply infos hrun hr hi).1).1
    have hzero : R.fullmoveNumber g.board = 1 := (hnumber 0 (by omega)).symm
    have hone := hnumber 1 (by omega)
    have hget : g.mainlineMoves[0]? = some g.mainlineMoves[0] := List.getElem?_eq_getElem (by omega)
    rw [boardAt_succ hget, R.fullmove_push, boardAt_zero, hzero] at hone
    refine ⟨hlen, ?_, hzero, fun k hk => not_over infos hrun hr hk⟩
    cases hturn : R.turn g.board with
    | white => rfl
    | black =>
      rw [hturn, if_pos rfl] at hone
      omega
  · rintro ⟨hlen, hturn, hfull, hover⟩
    obtain ⟨s, hs⟩ := summary_ok (t := evalsAt infos g g.mainlineMoves.length) (by simpa [evalsAt] using hlen)
      (by simp [evalsAt]) (by simp [evalsAt])
    have hfirst : overAt g 0 = false := hover 0 (by omega)
    refine ⟨_, (run_ok_iff infos).mpr ⟨hfirst, hlen, s, hs, rfl⟩, ?_⟩
    refine ⟨by simp [evalsAt], by simp [evalsAt], by simp [evalsAt], fun i hi => ?_⟩
    have hget : g.mainlineMoves[i]? = some g.mainlineMoves[i] := List.getElem?_eq_getElem hi
    have hnot : overAt g i = false := hover i hi
    obtain ⟨printed, hprinted⟩ : ∃ printed, printedRow infos g i = some printed := by
      rw [printedRow, hget, Option.bind_some, hnot]
      exact ⟨_, rfl⟩
    obtain ⟨hsan, hlabel⟩ := printedRow_eq infos hprinted
    rw [hget, Option.map_some] at hsan
    rw [hnot, if_neg Bool.false_ne_true] at hlabel
    refine ⟨printed, _, (rows_getElem infos hfirst le_rfl hi).trans hprinted, saved_getElem infos hi hget, hlabel,
      (Option.some_inj.mp hsan).symm, hlabel.trans (labelAt_normal hturn hfull hi.le)⟩

end

/-- python-chess on the game 1. f3 e5 2. g4 Qh4#: the board is the number of half-moves played. -/
def foolsMateRules : Rules where
  Board := Nat
  Move := Str × Str
  push n _ := n + 1
  fen n := match n with
    | 0 => "rnbqkbnr/pppppppp/8/8/8/8/PPPPPPPP/RNBQKBNR w KQkq - 0 1".toList
    | 1 => "rnbqkbnr/pppppppp/8/8/8/5P2/PPPPP1PP/RNBQKBNR b KQkq - 0 1".toList
    | 2 => "rnbqkbnr/pppp1ppp/8/4p3/8/5P2/PPPPP1PP/RNBQKBNR w KQkq - 0 2".toList
    | 3 => "rnbqkbnr/pppp1ppp/8/4p3/6P1/5P2/PPPPP2P/RNBQKBNR b KQkq - 0 2".toList
    | _ => "rnb1kbnr/pppp1ppp/8/4p3/6Pq/5P2/PPPPP2P/RNBQKBNR w KQkq - 1 3".toList
  turn n := if n % 2 = 0 then .white else .black
  fullmoveNumber n := n / 2 + 1
  uci m := m.1
  san _ m := m.2
  isGameOver n := n == 4
  isCheckmate n := n == 4
  turn_push n _ := by
    rcases Nat.mod_two_eq_zero_or_one n with h | h <;> simp [h, Nat.succ_mod_two_eq_zero_iff, Color.other]
  fullmove_push n _ := by
    rcases Nat.mod_two_eq_zero_or_one n with h | h <;> simp [h] <;> omega

def foolsMate : Game foolsMateRules.toPyChess where
  white := none
  black := none
  board := (0 : Nat)
  mainlineMoves := [("f2f3".toList, "f3".toList), ("e7e5".toList, "e5".toList), ("g2g4".toList, "g4".toList),
    ("d8h4".toList, "Qh4#".toList)]

/-- Engines that see nothing but an even game before the mate. -/
def evenInfos : Infos where
  sf i := ⟨.cp 0, if i % 2 = 0 then .black else .white⟩
  lc0 i := ⟨.cp 0, if i % 2 = 0 then .black else .white⟩

/-- The mate of White's king is appended as ten thousand pawns for White. -/
theorem mated_appends_win : ∃ k < reached foolsMate, overAt foolsMate k = true ∧
    ¬ AppendsVerdict evenInfos foolsMate k := by
  have hreached : 3 < reached foolsMate := by decide
  refine ⟨3, hreached, rfl, fun h => ?_⟩
  exact absurd ((appendsVerdict_iff evenInfos hreached).mp h rfl) (by decide)

theorem foolsMate_incomplete : ¬ ∃ r, run evenInfos foolsMate = .ok r ∧ Complete foolsMate r := by
  rintro ⟨r, hrun, hr⟩
  have hover := not_over evenInfos hrun hr (k := 3) (by decide)
  revert hover
  decide

end ChessAnalytics.Games
