import ChessAnalytics.Stockfish.Decoding
import ChessAnalytics.Systems.LastEntries
import ChessAnalytics.Systems.Traversal

/-! `evaluate` of `evaluate_position`: the lines it keeps for each rank, and what it makes of the
words of a line. -/
namespace ChessAnalytics.Candidates
open Strings Stockfish Systems

/-- The exceptions that a malformed line or result raises. -/
inductive PyError where
  | index
  | value
  | type
  deriving DecidableEq

/-- A score: a number of pawns, or the text of a mate. -/
inductive ScoreValue where
  | number (x : ℚ)
  | text (s : Str)
  deriving DecidableEq

/-- The dictionary of one rank. -/
structure Candidate where
  rank : Int
  score : Option ScoreValue
  move : Option Str
  pv : List Str
  deriving DecidableEq

/-- What `evaluate` returns: a pair, or the list of the ranks. -/
inductive Evaluated where
  | single (score : Option ScoreValue) (bestMove : Option Str)
  | ranked (results : List Candidate)
  deriving DecidableEq

abbrev LinesByPv := AList (fun _ : Int => List Str)

def areDigits (s : Str) : Bool := !s.isEmpty && s.all Char.isDigit

/-- `int(s)` on a word. -/
def toInt : Str → Except PyError Int
  | '-' :: ds => if areDigits ds then .ok (-(readNat ds : Int)) else .error .value
  | '+' :: ds => if areDigits ds then .ok (readNat ds) else .error .value
  | ds => if areDigits ds then .ok (readNat ds) else .error .value

/-- `parts[parts.index(key) + 1]`, for a key that the line has. -/
def wordAfter (key : Str) (parts : List Str) : Except PyError Str :=
  match parts.dropWhile (· ≠ key) with
  | _ :: w :: _ => .ok w
  | _ => .error .index

def rankOf (parts : List Str) : Except PyError Int :=
  if "multipv".toList ∈ parts then do toInt (← wordAfter "multipv".toList parts) else .ok 1

def parseScore (parts : List Str) : Except PyError (Option ScoreValue) :=
  if "cp".toList ∈ parts then do
    let cp ← toInt (← wordAfter "cp".toList parts)
    return some (.number ((cp : ℚ) / 100))
  else if "mate".toList ∈ parts then do
    let moves ← wordAfter "mate".toList parts
    return some (.text ("mate in ".toList ++ moves))
  else .ok none

def parsePv (parts : List Str) : List Str := (parts.dropWhile (· ≠ "pv".toList)).tail

/-- The first branch of the loop. -/
def keepInfo (d : LinesByPv) (line : Str) : Except PyError LinesByPv :=
  if "info".toList <+: line ∧ "score".toList <:+: line then do
    let rank ← rankOf (split line)
    return d.insert rank (split line)
  else .ok d

/-- The loop over the engine's lines, with the dictionary and the best move when it ends. -/
def collect (d : LinesByPv) : List Str → Except PyError (LinesByPv × Option Str)
  | [] => .ok (d, none)
  | line :: lines =>
    match keepInfo d (strip line) with
    | .error e => .error e
    | .ok d =>
      if "bestmove".toList <+: strip line then
        match (split (strip line))[1]? with
        | some bestMove => .ok (d, some bestMove)
        | none => .error .index
      else collect d lines

def candidate (rank : Int) (parts : List Str) : Except PyError Candidate := do
  let score ← parseScore parts
  return ⟨rank, score, (parsePv parts).head?, parsePv parts⟩

/-- `evaluate`, on the lines that the engine prints. -/
def evaluate (multipv : Int) (lines : List Str) : Except PyError Evaluated :=
  match collect ∅ lines with
  | .error e => .error e
  | .ok (d, bestMove) =>
    if multipv = 1 then do
      let score ← parseScore ((d.lookup 1).getD [])
      return .single score bestMove
    else do
      let results ← (sortedKeys d).mapM fun rank => candidate rank ((d.lookup rank).getD [])
      return .ranked results

theorem toInt_showNat (n : Nat) : toInt (showNat n) = .ok n := by
  have hdigits : areDigits (showNat n) = true := by
    rw [areDigits, Bool.and_eq_true, List.all_eq_true]
    exact ⟨by simpa using showNat_ne_nil n, fun c hc => isDigit_of_mem_showNat hc⟩
  unfold toInt
  split
  · rename_i ds heq
    have : ('-' : Char).isDigit = true := isDigit_of_mem_showNat (n := n) (by rw [heq]; exact List.mem_cons_self)
    exact absurd this (by decide)
  · rename_i ds heq
    have : ('+' : Char).isDigit = true := isDigit_of_mem_showNat (n := n) (by rw [heq]; exact List.mem_cons_self)
    exact absurd this (by decide)
  · rw [if_pos hdigits, readNat_showNat]

theorem toInt_showInt (z : Int) : toInt (showInt z) = .ok z := by
  cases z with
  | ofNat n => exact toInt_showNat n
  | negSucc n =>
    have hdigits : areDigits (showNat (n + 1)) = true := by
      rw [areDigits, Bool.and_eq_true, List.all_eq_true]
      exact ⟨by simpa using showNat_ne_nil (n + 1), fun c hc => isDigit_of_mem_showNat hc⟩
    rw [showInt, toInt, if_pos hdigits, readNat_showNat]
    rfl

theorem wordAfter_eq {key : Str} {ws rest : List Str} {w : Str} (h : ∀ u ∈ ws, u ≠ key) :
    wordAfter key (ws ++ key :: w :: rest) = .ok w := by
  have hdrop : (ws ++ key :: w :: rest).dropWhile (· ≠ key) = key :: w :: rest := by
    rw [List.dropWhile_append_of_pos (fun u hu => by simpa using h u hu), List.dropWhile_cons_of_neg (by simp)]
  rw [wordAfter, hdrop]

theorem parsePv_eq {ws pv : List Str} (h : ∀ u ∈ ws, u ≠ "pv".toList) : parsePv (ws ++ "pv".toList :: pv) = pv := by
  rw [parsePv, List.dropWhile_append_of_pos (fun u hu => by simpa using h u hu), List.dropWhile_cons_of_neg (by simp)]
  rfl

/-- A key that is neither a numeral nor a printed move. -/
private def Keyword (key : Str) : Prop := (∃ c ∈ key, c.isDigit = false ∧ c ≠ '-') ∧ ∃ c ∈ key, c ∉ moveChars

private instance (key : Str) : Decidable (Keyword key) := by unfold Keyword; infer_instance

private theorem number_ne {key : Str} (hk : Keyword key) (z : Int) : showInt z ≠ key := by
  rintro rfl
  obtain ⟨c, hc, hdigit, hminus⟩ := hk.1
  rcases mem_showInt hc with rfl | h
  · exact hminus rfl
  · exact Bool.false_ne_true (hdigit.symm.trans h)

private theorem move_ne {key : Str} (hk : Keyword key) (m : Move) : move m false ≠ key := by
  rintro rfl
  obtain ⟨c, hc, hchars⟩ := hk.2
  exact hchars (move_chars m false c hc)

def pvTexts (pv : List Move) : List Str := pv.map fun m => move m false

def fullWords (r : FullRecord) : List Str := frontWords r ++ wdlWords r.wdl ++ backWords r ++ "pv".toList :: pvTexts r.pv

def noMovesParts (depth : Nat) (score : Score) : List Str :=
  noMovesWords depth ++ ["score".toList, scoreKind score, showInt (scoreValue score)]

private def Clean (w : Str) : Prop := w ≠ [] ∧ ∀ c ∈ w, isSpace c = false

private theorem number_clean (z : Int) : Clean (showInt z) := ⟨showInt_ne_nil z, fun _ hc => isSpace_showInt hc⟩

private theorem literal_clean {w : Str} (h : w.isEmpty = false ∧ w.all (fun c => !isSpace c) = true) : Clean w :=
  ⟨by simpa using h.1, by simpa using h.2⟩

private theorem literals_clean {ws : List Str} (h : ∀ w ∈ ws, w.isEmpty = false ∧ w.all (fun c => !isSpace c) = true) :
    ∀ w ∈ ws, Clean w := fun w hw => literal_clean (h w hw)

private theorem split_line {ws : List Str} (rest : Str) (hws : ∀ w ∈ ws, Clean w) : split (line ws rest) = ws ++ split rest := by
  induction ws with
  | nil => rfl
  | cons w ws ih =>
    obtain ⟨hne, hclean⟩ := hws w List.mem_cons_self
    rw [line_cons, split_word _ hclean hne, ih fun v hv => hws v (List.mem_cons_of_mem _ hv)]
    rfl

private theorem front_clean (r : FullRecord) : ∀ w ∈ frontWords r ++ wdlWords r.wdl ++ backWords r, Clean w :=
  all_words r number_clean (literals_clean (by decide))

theorem split_full (r : FullRecord) : split (Record.full r).print = fullWords r := by
  have hpv : split (pvText r.pv) = pvTexts r.pv := by
    apply split_joined
    exact all_moves (P := Clean) (fun m => ⟨move_ne_nil m false, move_clean m false⟩) r.pv
  obtain ⟨hne, hclean⟩ := literal_clean (w := "pv".toList) (by decide)
  rw [print_full_words, split_line _ (front_clean r), split_word _ hclean hne, hpv]
  rfl

theorem split_noMoves (depth : Nat) (score : Score) : split (Record.noMoves depth score).print = noMovesParts depth score := by
  obtain ⟨hne, hclean⟩ := literal_clean (w := "score".toList) (by decide)
  obtain ⟨hkne, hkclean⟩ := all_kind (P := Clean) score (literals_clean (by decide))
  obtain ⟨hvne, hvclean⟩ := number_clean (scoreValue score)
  rw [print_noMoves, split_line _ (all_noMoves depth number_clean (literals_clean (by decide))), split_word _ hclean hne,
    split_word _ hkclean hkne, split_clean hvclean hvne]
  rfl

/-- The score that the client makes of a printed one. -/
def shownScore (s : Score) : ScoreValue :=
  match s with
  | .mate plies => .text ("mate in ".toList ++ showInt (mateMoves plies))
  | s => .number ((scoreValue s : ℚ) / 100)

theorem rankOf_full (r : FullRecord) : rankOf (fullWords r) = .ok r.multiPV := by
  have hword : fullWords r = ["info".toList, "depth".toList, showNat r.depth, "seldepth".toList, showNat r.selDepth] ++
      "multipv".toList :: showNat r.multiPV :: ("score".toList :: (scoreWords r ++ boundWords r.bound ++ wdlWords r.wdl ++
        backWords r ++ "pv".toList :: pvTexts r.pv)) := by
    simp only [fullWords, frontWords, headWords, List.append_assoc, List.cons_append, List.nil_append]
  have hfront : ∀ w ∈ ["info".toList, "depth".toList, showNat r.depth, "seldepth".toList, showNat r.selDepth],
      w ≠ "multipv".toList := by
    simp only [List.forall_mem_cons]
    exact ⟨by decide, by decide, number_ne (by decide) r.depth, by decide, number_ne (by decide) r.selDepth, by simp⟩
  rw [rankOf, hword, if_pos (by simp), wordAfter_eq hfront]
  exact toInt_showNat r.multiPV

theorem rankOf_noMoves (depth : Nat) (score : Score) : rankOf (noMovesParts depth score) = .ok 1 := by
  have hwords : ∀ w ∈ noMovesParts depth score, w ≠ "multipv".toList := by
    simp only [noMovesParts, List.forall_mem_append, List.forall_mem_cons]
    exact ⟨all_noMoves depth (number_ne (by decide)) (by decide), by decide,
      all_kind (P := (· ≠ "multipv".toList)) score (by decide), number_ne (by decide) _, by simp⟩
  rw [rankOf, if_neg fun h => hwords _ h rfl]

private theorem parseScore_eq {ws rest : List Str} (s : Score)
    (hws : ∀ w ∈ ws, w ≠ "cp".toList ∧ w ≠ "mate".toList) (hrest : ∀ w ∈ rest, w ≠ "cp".toList) :
    parseScore (ws ++ scoreKind s :: showInt (scoreValue s) :: rest) = .ok (some (shownScore s)) := by
  have hcp : scoreKind s = "cp".toList → parseScore (ws ++ scoreKind s :: showInt (scoreValue s) :: rest) =
      .ok (some (.number ((scoreValue s : ℚ) / 100))) := by
    intro h
    rw [parseScore, h, if_pos (by simp), wordAfter_eq fun w hw => (hws w hw).1]
    simp only [bind, Except.bind, toInt_showInt]
    rfl
  cases s with
  | mate plies =>
    have hmem : "mate".toList ∈ ws ++ scoreKind (.mate plies) :: showInt (mateMoves plies) :: rest := by simp [scoreKind]
    have hnot : ¬ "cp".toList ∈ ws ++ scoreKind (.mate plies) :: showInt (mateMoves plies) :: rest := by
      intro h
      simp only [List.mem_append, List.mem_cons] at h
      rcases h with h | h | h | h
      · exact (hws _ h).1 rfl
      · have hkind : "cp".toList = "mate".toList := h
        exact absurd hkind (by decide)
      · exact number_ne (by decide) _ h.symm
      · exact hrest _ h rfl
    rw [parseScore, scoreValue, if_neg hnot, if_pos hmem]
    have hafter : wordAfter "mate".toList (ws ++ "mate".toList :: showInt (mateMoves plies) :: rest) =
        .ok (showInt (mateMoves plies)) := wordAfter_eq fun w hw => (hws w hw).2
    rw [show scoreKind (.mate plies) = "mate".toList from rfl, hafter]
    rfl
  | tablebase plies win => exact hcp rfl
  | internalUnits value => exact hcp rfl

theorem parseScore_full (r : FullRecord) : parseScore (fullWords r) = .ok (some (shownScore r.score)) := by
  have hwords : fullWords r = (headWords r ++ ["score".toList]) ++ scoreKind r.score :: showInt (scoreValue r.score) ::
      (boundWords r.bound ++ wdlWords r.wdl ++ backWords r ++ "pv".toList :: pvTexts r.pv) := by
    simp only [fullWords, frontWords, scoreWords, List.append_assoc, List.cons_append, List.nil_append]
  rw [hwords]
  refine parseScore_eq r.score ?_ ?_
  · simp only [List.forall_mem_append, List.forall_mem_singleton]
    exact ⟨all_head (P := fun w => w ≠ "cp".toList ∧ w ≠ "mate".toList) r
      (fun z => ⟨number_ne (by decide) z, number_ne (by decide) z⟩) (by decide), by decide⟩
  · simp only [List.forall_mem_append, List.forall_mem_cons]
    exact ⟨⟨⟨all_bound r.bound (by decide), all_wdl r.wdl (number_ne (by decide)) (by decide)⟩,
      all_back r (number_ne (by decide)) (by decide)⟩, by decide, all_moves (move_ne (by decide)) r.pv⟩

theorem parseScore_noMoves (depth : Nat) (score : Score) :
    parseScore (noMovesParts depth score) = .ok (some (shownScore score)) := by
  have hwords : noMovesParts depth score =
      (noMovesWords depth ++ ["score".toList]) ++ scoreKind score :: showInt (scoreValue score) :: [] := by
    simp only [noMovesParts, List.append_assoc, List.cons_append, List.nil_append]
  rw [hwords]
  refine parseScore_eq score ?_ (by simp)
  simp only [List.forall_mem_append, List.forall_mem_singleton]
  exact ⟨all_noMoves (P := fun w => w ≠ "cp".toList ∧ w ≠ "mate".toList) depth
    (fun z => ⟨number_ne (by decide) z, number_ne (by decide) z⟩) (by decide), by decide⟩

theorem parsePv_full (r : FullRecord) : parsePv (fullWords r) = pvTexts r.pv :=
  parsePv_eq (all_words r (number_ne (by decide)) (by decide))

/-- The entry that a record leaves in the dictionary: its rank and its words. -/
def entryOf : Record → Option (Int × List Str)
  | .full r => some (r.multiPV, fullWords r)
  | .noMoves depth score => some (1, noMovesParts depth score)
  | .iter .. | .infoString .. => none

private theorem infix_line {k rest : Str} (ws : List Str) (h : k <:+: rest) : k <:+: line ws rest := by
  induction ws with
  | nil => exact h
  | cons w ws ih =>
    rw [line_cons, word]
    exact List.infix_append_of_infix_right (List.infix_cons ih)

private theorem score_word (ws : List Str) (rest : Str) : "score".toList <:+: line ws (word "score".toList rest) :=
  infix_line ws (List.prefix_append _ _).isInfix

private theorem iter_unscored (depth : Nat) (currmove : Move) (n : Nat) :
    ¬ "score".toList <:+: (Record.iter depth currmove n).print := by
  have hnumber (z : Int) : 's' ∉ showInt z := by
    intro h
    rcases mem_showInt h with h | h
    · cases h
    · exact absurd h (by decide)
  have hmove (m : Move) : 's' ∉ move m false := fun h => absurd (move_chars m false _ h) (by decide)
  intro h
  rw [print_iter] at h
  have hs : 's' ∈ line (iterWords depth currmove) (joined [showNat n]) := h.subset (by decide)
  rcases mem_line hs with hs | ⟨w, hw, hs⟩ | hs
  · cases hs
  · exact all_iter (P := ('s' ∉ ·)) depth currmove hnumber hmove (by decide) w hw hs
  · exact hnumber n hs

private theorem info_strip (r : Record) : "info".toList <+: strip r.print := by
  refine prefix_strip (by decide) (by decide) ?_
  exact (show "info".toList <+: "info ".toList from ⟨" ".toList, rfl⟩).trans (print_info r)

private theorem keep_words {r : Record} {rank : Int} {parts : List Str} (d : LinesByPv)
    (hscore : "score".toList <:+: r.print) (hsplit : split r.print = parts) (hrank : rankOf parts = .ok rank) :
    keepInfo d (strip r.print) = .ok (d.insert rank parts) := by
  have hline : "info".toList <+: strip r.print ∧ "score".toList <:+: strip r.print :=
    ⟨info_strip r, infix_strip (by decide) (by decide) hscore⟩
  rw [keepInfo, if_pos hline, split_strip, hsplit, hrank]
  rfl

private theorem keep_none {r : Record} (d : LinesByPv) (hscore : ¬ "score".toList <:+: r.print) :
    keepInfo d (strip r.print) = .ok d := by
  rw [keepInfo, if_neg fun h => hscore (h.2.trans (infix_of_strip _))]

theorem keepInfo_print (d : LinesByPv) (r : Record) :
    keepInfo d (strip r.print) = .ok (keepLast d (entryOf r).toList) := by
  cases r with
  | full r =>
    rw [keep_words d (print_full r ▸ score_word _ _) (split_full r) (rankOf_full r)]
    rfl
  | noMoves depth score =>
    rw [keep_words d (print_noMoves depth score ▸ score_word _ _) (split_noMoves depth score) (rankOf_noMoves depth score)]
    rfl
  | iter depth currmove n => exact keep_none d (iter_unscored depth currmove n)
  | infoString s hs he => exact keep_none d hs

private theorem print_not_bestmove (r : Record) : ¬ "bestmove".toList <+: strip r.print := by
  intro h
  have hinfo : "info".toList <+: "bestmove".toList :=
    List.prefix_of_prefix_length_le (info_strip r) h (by decide)
  exact absurd hinfo (by decide)

private theorem bestmove_word (rest : Str) : "bestmove ".toList ++ rest = word "bestmove".toList rest := by
  rw [word, show "bestmove ".toList = "bestmove".toList ++ [' '] from rfl, List.append_assoc]
  rfl

private theorem onBestmove_alone (best : Str) : onBestmove best [] = word "bestmove".toList best := by
  have hnil : ¬ ([] : Str) ≠ [] := fun h => h rfl
  unfold onBestmove
  rw [if_neg hnil, ← bestmove_word]
  exact List.append_nil _

private theorem onBestmove_ponder {best ponder : Str} (h : ponder ≠ []) :
    onBestmove best ponder = word "bestmove".toList (word best ("ponder ".toList ++ ponder)) := by
  have hponder : " ponder ".toList ++ ponder = ' ' :: ("ponder ".toList ++ ponder) := rfl
  unfold onBestmove
  rw [if_pos h, ← bestmove_word, hponder]
  exact List.append_assoc _ _ _

private theorem split_bestmove (best : Move) (ponder : Option Move) :
    (split (onBestmove (move best false) (ponder.elim [] (move · false))))[1]? = some (move best false) := by
  have hfirst (rest : Str) : split (word "bestmove".toList rest) = "bestmove".toList :: split rest :=
    split_word rest (by decide) (by decide)
  cases ponder with
  | none =>
    have hline := onBestmove_alone (move best false)
    rw [Option.elim_none, hline, hfirst,
      split_clean (move_clean best false) (move_ne_nil best false)]
    rfl
  | some m =>
    have hline := @onBestmove_ponder (move best false) _ (move_ne_nil m false)
    rw [Option.elim_some, hline, hfirst,
      split_word _ (move_clean best false) (move_ne_nil best false)]
    rfl

private theorem collect_bestmove (d : LinesByPv) (best : Move) (ponder : Option Move) :
    collect d [onBestmove (move best false) (ponder.elim [] (move · false))] = .ok (d, some (move best false)) := by
  have hbest : "bestmove".toList <+: strip (onBestmove (move best false) (ponder.elim [] (move · false))) := by
    refine prefix_strip (by decide) (by decide) ?_
    exact (show "bestmove".toList <+: "bestmove ".toList from ⟨" ".toList, rfl⟩).trans (bestmove_starts _ _)
  have hinfo : ¬ "info".toList <+: strip (onBestmove (move best false) (ponder.elim [] (move · false))) := by
    intro h
    have hprefix : "info".toList <+: "bestmove".toList := List.prefix_of_prefix_length_le h hbest (by decide)
    exact absurd hprefix (by decide)
  rw [collect, keepInfo, if_neg fun h => hinfo h.1]
  dsimp only
  rw [if_pos hbest, split_strip, split_bestmove]

theorem collect_print (d : LinesByPv) (rs : List Record) (best : Move) (ponder : Option Move) :
    collect d (rs.map Record.print ++ [onBestmove (move best false) (ponder.elim [] (move · false))]) =
      .ok (keepLast d (rs.filterMap entryOf), some (move best false)) := by
  induction rs generalizing d with
  | nil => exact collect_bestmove d best ponder
  | cons r rs ih =>
    rw [List.map_cons, List.cons_append, collect, keepInfo_print]
    dsimp only
    rw [if_neg (print_not_bestmove r), ih, ← keepLast_append]
    cases h : entryOf r with
    | none => rw [List.filterMap_cons_none h]; rfl
    | some e => rw [List.filterMap_cons_some h]; rfl

/-- The lines that a search leaves in the dictionary. -/
def kept (rs : List Record) : LinesByPv := keepLast ∅ (rs.filterMap entryOf)

section
variable {rs : List Record} (best : Move) (ponder : Option Move)

/-- With one variation the result is that of the line of the first rank. -/
theorem evaluate_one {parts : List Str} {score : Option ScoreValue} (hparts : (kept rs).lookup 1 = some parts)
    (hscore : parseScore parts = .ok score) :
    evaluate 1 (rs.map Record.print ++ [onBestmove (move best false) (ponder.elim [] (move · false))]) =
      .ok (.single score (some (move best false))) := by
  rw [evaluate, collect_print]
  dsimp only
  rw [if_pos rfl, ← kept, hparts, Option.getD_some, hscore]
  rfl

/-- With more variations it is that of the lines of all ranks. -/
theorem evaluate_many {multipv : Int} (hk : multipv ≠ 1) {results : List Candidate}
    (hresults : (sortedKeys (kept rs)).mapM (fun rank => candidate rank (((kept rs).lookup rank).getD [])) = .ok results) :
    evaluate multipv (rs.map Record.print ++ [onBestmove (move best false) (ponder.elim [] (move · false))]) =
      .ok (.ranked results) := by
  rw [evaluate, collect_print]
  dsimp only
  rw [if_neg hk, ← kept, hresults]
  rfl

end

end ChessAnalytics.Candidates
