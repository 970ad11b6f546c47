import ChessAnalytics.Stockfish.Printer
import ChessAnalytics.Stockfish.Evaluator

/-! `evaluate` reads back what Stockfish printed: every field of every info line, and the
choice of the record among any mixture of lines. -/
namespace ChessAnalytics.Stockfish
open Strings Pattern Systems

inductive Bound where
  | lower | upper
  deriving DecidableEq, Repr

/-- The texts of `SearchManager::pv` for the bound and the wdl field. -/
def boundText : Option Bound → Str
  | none => []
  | some .lower => "lowerbound".toList
  | some .upper => "upperbound".toList

def wdlField : Option (Nat × Nat × Nat) → Str
  | none => []
  | some (w, d, l) => wdlText w d l

/-- What one `on_update_full` line reports. -/
structure FullRecord where
  depth : Nat
  selDepth : Nat
  multiPV : Nat
  score : Score
  bound : Option Bound
  wdl : Option (Nat × Nat × Nat)
  nodes : Nat
  nps : Nat
  hashfull : Nat
  tbHits : Nat
  timeMs : Nat
  pv : List Move

def FullRecord.info (r : FullRecord) : InfoFull :=
  { depth := r.depth, score := r.score, selDepth := r.selDepth, multiPV := r.multiPV
    wdl := wdlField r.wdl, bound := boundText r.bound
    timeMs := r.timeMs, nodes := r.nodes, nps := r.nps, tbHits := r.tbHits
    pv := pvText r.pv, hashfull := r.hashfull }

/-- The line kinds of a search before its bestmove line. -/
inductive Record where
  | full (r : FullRecord)
  | noMoves (depth : Nat) (score : Score)
  | iter (depth : Nat) (currmove : Move) (currmovenumber : Nat)
  | infoString (s : Str) (hs : ¬ "score".toList <:+: infoString s)
      (he : ¬ "CRITICAL ERROR".toList <:+: infoString s)

def Record.print : Record → Str
  | .full r => onUpdateFull r.info r.wdl.isSome
  | .noMoves depth score => onUpdateNoMoves ⟨depth, score⟩
  | .iter depth currmove n => onIter ⟨depth, move currmove false, n⟩
  | .infoString s _ _ => Stockfish.infoString s

/-- The centipawn or mate number that a score prints, and `none` for the other kind. -/
def Score.printedCp : Score → Option Int
  | .mate _ => none
  | .tablebase plies win => some ((if win then tbCp else -tbCp) - plies)
  | .internalUnits value => some value

def Score.printedMate : Score → Option Int
  | .mate plies => some (mateMoves plies)
  | _ => none

/-- A record that carries a score, with what it prints and what it leaves out. -/
def Record.scored : Record → Option ParsedInfo
  | .full r => some
    { depth := r.depth, scoreCp := r.score.printedCp, mateIn := r.score.printedMate
      nodes := some r.nodes, timeMs := some r.timeMs, wdl := r.wdl
      pv := if r.pv = [] then none else some (r.pv.map (fun m => move m false)) }
  | .noMoves depth score => some
    { depth, scoreCp := score.printedCp, mateIn := score.printedMate
      nodes := none, timeMs := none, wdl := none, pv := none }
  | .iter .. | .infoString .. => none

def scoreKind : Score → Str
  | .mate _ => "mate".toList
  | _ => "cp".toList

def scoreValue : Score → Int
  | .mate plies => mateMoves plies
  | .tablebase plies win => (if win then tbCp else -tbCp) - plies
  | .internalUnits value => value

theorem formatScore_eq (s : Score) : formatScore s = word (scoreKind s) (showInt (scoreValue s)) := by
  cases s <;> rfl

def headWords (r : FullRecord) : List Str :=
  ["info".toList, "depth".toList, showNat r.depth, "seldepth".toList, showNat r.selDepth,
    "multipv".toList, showNat r.multiPV]

def boundWords : Option Bound → List Str
  | none => []
  | some .lower => ["lowerbound".toList]
  | some .upper => ["upperbound".toList]

def wdlWords : Option (Nat × Nat × Nat) → List Str
  | none => []
  | some (w, d, l) => ["wdl".toList, showNat w, showNat d, showNat l]

def countWords (r : FullRecord) : List Str :=
  ["nps".toList, showNat r.nps, "hashfull".toList, showNat r.hashfull, "tbhits".toList, showNat r.tbHits]

def scoreWords (r : FullRecord) : List Str := [scoreKind r.score, showInt (scoreValue r.score)]

private theorem boundText_words (o : Option Bound) :
    (if boundText o ≠ [] then " ".toList ++ boundText o else []) =
      (boundWords o).flatMap (fun w => ' ' :: w) := by
  match o with
  | none => rfl
  | some .lower => rfl
  | some .upper => rfl

private theorem wdlField_words (o : Option (Nat × Nat × Nat)) :
    (if o.isSome then " wdl ".toList ++ wdlField o else []) = (wdlWords o).flatMap (fun w => ' ' :: w) := by
  match o with
  | none => rfl
  | some (w, d, l) =>
    simp only [Option.isSome_some, if_true, wdlField, wdlText, wdlWords, List.flatMap_cons, List.flatMap_nil,
      List.append_nil, List.append_assoc, List.cons_append]
    rfl

private theorem flatMap_words (ws : List Str) (rest : Str) :
    ws.flatMap (fun w => ' ' :: w) ++ ' ' :: rest = ' ' :: line ws rest := by
  induction ws with
  | nil => rfl
  | cons w ws ih => simp only [List.flatMap_cons, List.append_assoc, List.cons_append, ih, line_cons, word]

theorem print_full (r : FullRecord) :
    (Record.full r).print =
      line (headWords r) (word "score".toList (line (scoreWords r) (line (boundWords r.bound) (line (wdlWords r.wdl)
        (word "nodes".toList (word (showNat r.nodes) (line (countWords r)
          (word "time".toList (word (showNat r.timeMs) (word "pv".toList (pvText r.pv))))))))))) := by
  have hline : (Record.full r).print = onUpdateFull r.info r.wdl.isSome := rfl
  rw [hline]
  unfold onUpdateFull FullRecord.info
  simp only [boundText_words, wdlField_words, formatScore_eq,
    show " depth ".toList = ' ' :: "depth".toList ++ [' '] from rfl,
    show " seldepth ".toList = ' ' :: "seldepth".toList ++ [' '] from rfl,
    show " multipv ".toList = ' ' :: "multipv".toList ++ [' '] from rfl,
    show " score ".toList = ' ' :: "score".toList ++ [' '] from rfl,
    show " nodes ".toList = ' ' :: "nodes".toList ++ [' '] from rfl,
    show " nps ".toList = ' ' :: "nps".toList ++ [' '] from rfl,
    show " hashfull ".toList = ' ' :: "hashfull".toList ++ [' '] from rfl,
    show " tbhits ".toList = ' ' :: "tbhits".toList ++ [' '] from rfl,
    show " time ".toList = ' ' :: "time".toList ++ [' '] from rfl,
    show " pv ".toList = ' ' :: "pv".toList ++ [' '] from rfl]
  simp only [List.append_assoc, List.cons_append, List.nil_append, flatMap_words, line_append_rest,
    headWords, scoreWords, countWords, line_cons, line_nil, word]

/-- A key that no numeral and no printed move can end with. -/
private def Lettered (key : Str) : Prop :=
  (∃ c ∈ key, c.isDigit = false ∧ c ≠ '-') ∧ ∃ c ∈ key, c ∉ moveChars

private instance (key : Str) : Decidable (Lettered key) := by unfold Lettered; infer_instance

private theorem passes_number {key : Str} (hk : Lettered key) (z : Int) : Passes key (showInt z) :=
  passes_showInt z hk.1

private theorem passes_move {key : Str} (hk : Lettered key) (m : Move) : Passes key (move m false) := by
  obtain ⟨c, hc, hm⟩ := hk.2
  exact ⟨move_clean m false, skips_of_not_mem hc (fun h => hm (move_chars m false c h))⟩

/-- The words of a full line that are the same in every line, group by group. -/
def headLiterals : List Str := ["info".toList, "depth".toList, "seldepth".toList, "multipv".toList]
def scoreLiterals : List Str := ["cp".toList, "mate".toList]
def boundLiterals : List Str := ["lowerbound".toList, "upperbound".toList]
def countLiterals : List Str := ["nps".toList, "hashfull".toList, "tbhits".toList]
def frontLiterals : List Str := headLiterals ++ ["score".toList] ++ scoreLiterals ++ boundLiterals
def backLiterals : List Str := ["nodes".toList, "time".toList] ++ countLiterals

variable {P : Str → Prop}

theorem all_moves (hm : ∀ m, P (move m false)) (pv : List Move) :
    ∀ w ∈ pv.map (fun m => move m false), P w := by
  intro w hw
  obtain ⟨m, -, rfl⟩ := List.mem_map.mp hw
  exact hm m

theorem all_head (r : FullRecord) (hz : ∀ z, P (showInt z))
    (hl : ∀ w ∈ headLiterals, P w) : ∀ w ∈ headWords r, P w := by
  simp only [headLiterals, headWords, List.forall_mem_cons] at hl ⊢
  obtain ⟨hinfo, hdepth, hsel, hmulti, hnil⟩ := hl
  exact ⟨hinfo, hdepth, hz r.depth, hsel, hz r.selDepth, hmulti, hz r.multiPV, hnil⟩

theorem all_kind (s : Score) (hl : ∀ w ∈ scoreLiterals, P w) : P (scoreKind s) := by
  simp only [scoreLiterals, List.forall_mem_cons] at hl
  cases s
  · exact hl.2.1
  · exact hl.1
  · exact hl.1

theorem all_score (r : FullRecord) (hz : ∀ z, P (showInt z)) (hl : ∀ w ∈ scoreLiterals, P w) :
    ∀ w ∈ scoreWords r, P w := by
  simp only [scoreWords, List.forall_mem_cons]
  exact ⟨all_kind r.score hl, hz _, fun _ h => (List.not_mem_nil h).elim⟩

theorem all_bound (o : Option Bound) (hl : ∀ w ∈ boundLiterals, P w) : ∀ w ∈ boundWords o, P w := by
  simp only [boundLiterals, List.forall_mem_cons] at hl
  match o with
  | none => exact hl.2.2
  | some .lower => simpa [boundWords] using hl.1
  | some .upper => simpa [boundWords] using hl.2.1

theorem all_wdl (o : Option (Nat × Nat × Nat)) (hz : ∀ z, P (showInt z)) (hl : P "wdl".toList) :
    ∀ w ∈ wdlWords o, P w := by
  match o with
  | none => exact fun _ h => (List.not_mem_nil h).elim
  | some (w, d, l) =>
    simp only [wdlWords, List.forall_mem_cons]
    exact ⟨hl, hz w, hz d, hz l, fun _ h => (List.not_mem_nil h).elim⟩

theorem all_counts (r : FullRecord) (hz : ∀ z, P (showInt z)) (hl : ∀ w ∈ countLiterals, P w) :
    ∀ w ∈ countWords r, P w := by
  simp only [countLiterals, countWords, List.forall_mem_cons] at hl ⊢
  obtain ⟨hnps, hhash, htb, hnil⟩ := hl
  exact ⟨hnps, hz r.nps, hhash, hz r.hashfull, htb, hz r.tbHits, hnil⟩

/-- The words from the start of a full line up to its wdl field, and from there to the
key `pv`. -/
def frontWords (r : FullRecord) : List Str :=
  headWords r ++ ["score".toList] ++ scoreWords r ++ boundWords r.bound

def backWords (r : FullRecord) : List Str :=
  ["nodes".toList, showNat r.nodes] ++ countWords r ++ ["time".toList, showNat r.timeMs]

theorem print_full_words (r : FullRecord) :
    (Record.full r).print =
      line (frontWords r ++ wdlWords r.wdl ++ backWords r) (word "pv".toList (pvText r.pv)) := by
  rw [print_full]
  simp only [frontWords, backWords, line_append, line_cons, line_nil]

theorem all_front (r : FullRecord) (hz : ∀ z, P (showInt z)) (hl : ∀ w ∈ frontLiterals, P w) :
    ∀ w ∈ frontWords r, P w := by
  simp only [frontLiterals, frontWords, List.forall_mem_append, List.forall_mem_singleton] at hl ⊢
  obtain ⟨⟨⟨hhead, hscore⟩, hkind⟩, hbound⟩ := hl
  exact ⟨⟨⟨all_head r hz hhead, hscore⟩, all_score r hz hkind⟩, all_bound r.bound hbound⟩

theorem all_back (r : FullRecord) (hz : ∀ z, P (showInt z)) (hl : ∀ w ∈ backLiterals, P w) :
    ∀ w ∈ backWords r, P w := by
  simp only [backLiterals, backWords, List.forall_mem_append, List.forall_mem_cons] at hl ⊢
  obtain ⟨⟨hnodes, htime, hnil⟩, hcounts⟩ := hl
  exact ⟨⟨⟨hnodes, hz r.nodes, hnil⟩, all_counts r hz hcounts⟩, htime, hz r.timeMs, hnil⟩

/-- What holds of the numbers and of the literals holds of every word in front of the key `pv`. -/
theorem all_words (r : FullRecord) (hz : ∀ z, P (showInt z))
    (hl : ∀ w ∈ frontLiterals ++ ["wdl".toList] ++ backLiterals, P w) :
    ∀ w ∈ frontWords r ++ wdlWords r.wdl ++ backWords r, P w := by
  simp only [List.forall_mem_append, List.forall_mem_singleton] at hl ⊢
  obtain ⟨⟨hfront, hwdl⟩, hback⟩ := hl
  exact ⟨⟨all_front r hz hfront, all_wdl r.wdl hz hwdl⟩, all_back r hz hback⟩

private theorem wdlTail_space : SpaceFirst wdlTail := spaceFirst_text (by decide)
private theorem pvTail_space : SpaceFirst pvTail := spaceFirst_text (by decide)
private theorem scoreTail_space (kind : Str) : SpaceFirst (scoreTail kind) := spaceFirst_text (by decide)

private theorem full_depth (r : FullRecord) :
    depthPattern.search (Record.full r).print = some [showNat r.depth] := by
  rw [print_full]
  exact search_number ["info".toList] (by decide) (by decide) rfl

private theorem full_nodes (r : FullRecord) :
    nodesPattern.search (Record.full r).print = some [showNat r.nodes] := by
  have hws : ∀ w ∈ frontWords r ++ wdlWords r.wdl, Passes "nodes".toList w := by
    rw [List.forall_mem_append]
    exact ⟨all_front r (passes_number (by decide)) (by decide),
      all_wdl r.wdl (passes_number (by decide)) (by decide)⟩
  rw [print_full_words, line_append]
  exact search_number _ (by decide) hws rfl

private theorem full_time (r : FullRecord) :
    timePattern.search (Record.full r).print = some [showNat r.timeMs] := by
  have hws : ∀ w ∈ frontWords r ++ wdlWords r.wdl ++ (["nodes".toList, showNat r.nodes] ++ countWords r),
      Passes "time".toList w := by
    simp only [List.forall_mem_append]
    refine ⟨⟨all_front r (passes_number (by decide)) (by decide),
      all_wdl r.wdl (passes_number (by decide)) (by decide)⟩, ?_, all_counts r (passes_number (by decide)) (by decide)⟩
    simp only [List.forall_mem_cons]
    exact ⟨by decide, passes_showNat _ (by decide), fun _ h => (List.not_mem_nil h).elim⟩
  rw [print_full_words, backWords, ← List.append_assoc, line_append]
  exact search_number _ (by decide) hws rfl

private theorem full_wdl (r : FullRecord) :
    wdlPattern.search (Record.full r).print =
      r.wdl.map (fun t => [showNat t.1, showNat t.2.1, showNat t.2.2]) := by
  have hfront : ∀ w ∈ frontWords r, Passes "wdl".toList w :=
    all_front r (passes_number (by decide)) (by decide)
  rw [print_full_words]
  cases h : r.wdl with
  | none =>
    have hws : ∀ w ∈ frontWords r ++ wdlWords none ++ backWords r ++ ["pv".toList], Passes "wdl".toList w := by
      simp only [List.forall_mem_append]
      exact ⟨⟨⟨hfront, fun _ h => (List.not_mem_nil h).elim⟩,
        all_back r (passes_number (by decide)) (by decide)⟩, by decide⟩
    have hnone := searchFrom_keyed_none (b := none) (by decide) wdlTail_space rfl hws (all_moves (passes_move (by decide)) r.pv)
    rw [line_append] at hnone
    exact hnone
  | some t =>
    obtain ⟨w, d, l⟩ := t
    have hrun (rest : Str) : wdlTail.run ⟨"wdl".toList.getLast?, ' ' :: (line [showNat w, showNat d]
        (word (showNat l) rest)), []⟩ some =
          some ⟨lastOf (some ' ') (showNat l), ' ' :: rest, [showNat w, showNat d, showNat l]⟩ := by
      apply run_space_digits w (by simp)
      apply run_space_digits d (by simp)
      apply run_space_digits l (by simp)
      rw [run_boundary_showNat l rfl]
      rfl
    rw [List.append_assoc, line_append]
    exact search_keyed_line _ (by decide) wdlTail_space hfront (hrun _)

private theorem full_pv (r : FullRecord) :
    pvPattern.search (Record.full r).print = if r.pv = [] then none else some [pvText r.pv] := by
  have hws : ∀ w ∈ frontWords r ++ wdlWords r.wdl ++ backWords r, Passes "pv".toList w :=
    all_words r (passes_number (by decide)) (by decide)
  rw [print_full_words]
  split
  · rename_i hpv
    obtain ⟨b, -, he⟩ := searchFrom_keyed_line (word "pv".toList []) (by decide) pvTail_space (b := none) rfl hws
    rw [hpv, search, pvPattern, show pvText [] = [] from rfl, he,
      searchFrom_keyed_mismatch (by decide) pvTail_space (by intro; rfl)]
    rfl
  · rename_i hpv
    have hne : pvText r.pv ≠ [] := by
      obtain ⟨m, pv, hm⟩ := List.exists_cons_of_ne_nil hpv
      cases pv with
      | nil => simpa [pvText, hm, joined] using move_ne_nil m false
      | cons m' pv => simp [pvText, hm, joined, word]
    have hline : ∀ c ∈ pvText r.pv, (c != '\n') = true := by
      intro c hc
      have hbad : '\n' ∉ moveChars := by decide
      rw [bne_iff_ne]
      rintro rfl
      rcases mem_joined hc with h | ⟨w, hw, h⟩
      · exact absurd h (by decide)
      · obtain ⟨m, -, rfl⟩ := List.mem_map.mp hw
        exact hbad (move_chars m false _ h)
    have hrun : pvTail.run ⟨"pv".toList.getLast?, ' ' :: pvText r.pv, []⟩ some =
        some ⟨lastOf (some ' ') (pvText r.pv), [], [pvText r.pv]⟩ := by
      rw [pvTail, run_seq, show ' ' :: pvText r.pv = " ".toList ++ (pvText r.pv ++ []) by simp,
        run_text_append, run_seq]
      apply run_group_plus hne hline (by simp)
      rfl
    exact search_keyed_line _ (by decide) pvTail_space hws hrun

private theorem scoreTail_run (kind : Str) (v : Int) (b : Option Char) {rest : Str} (hr : wordAt rest.head? = false) :
    (scoreTail kind).run ⟨b, ' ' :: word kind (showInt v ++ rest), []⟩ some =
      some ⟨lastOf (lastOf b (' ' :: kind ++ [' '])) (showInt v), rest, [showInt v]⟩ := by
  have hsplit : ' ' :: word kind (showInt v ++ rest) = (' ' :: kind ++ [' ']) ++ (showInt v ++ rest) := by
    simp [word]
  rw [scoreTail, run_seq, hsplit, run_text_append, run_seq]
  apply run_signedDigits v (head_not_digit hr)
  rw [run_boundary_showInt v hr]
  rfl

private theorem scoreTail_mismatch {kind kind' : Str} (b : Option Char) (rest : Str)
    (h : ¬ kind ++ [' '] <+: word kind' rest) : (scoreTail kind).run ⟨b, ' ' :: word kind' rest, []⟩ some = none := by
  rw [scoreTail, run_seq]
  apply run_text_none
  rw [List.cons_append, List.cons_prefix_cons]
  exact fun hp => h hp.2

private theorem search_printedScore (ws : List Str) (s : Score) (rest : Str) (hr : wordAt rest.head? = false)
    (hws : ∀ w ∈ ws, Passes "score".toList w) :
    (keyed "score".toList (scoreTail (scoreKind s))).search
      (line ws (word "score".toList (word (scoreKind s) (showInt (scoreValue s) ++ rest)))) =
        some [showInt (scoreValue s)] :=
  search_keyed_line ws (by decide) (scoreTail_space _) hws (scoreTail_run _ _ _ hr)

/-- The other kind is not found, because no later word lets the key match again. -/
private theorem search_otherScore (ws ws' : List Str) {vs : List Str} (hws : ∀ w ∈ ws, Passes "score".toList w)
    (hws' : ∀ w ∈ ws', Passes "score".toList w) (hvs : ∀ v ∈ vs, Passes "score".toList v) :
    cpPattern.search (line ws (word "score".toList (word "mate".toList (line ws' (joined vs))))) = none := by
  obtain ⟨b, -, he⟩ := searchFrom_keyed_line (word "score".toList (word "mate".toList (line ws' (joined vs))))
    (by decide) (scoreTail_space "cp".toList) (b := none) rfl hws
  have hmate : ∀ w ∈ "mate".toList :: ws', Passes "score".toList w :=
    List.forall_mem_cons.mpr ⟨by decide, hws'⟩
  rw [search, cpPattern, he, searchFrom_keyed_mismatch (by decide) (scoreTail_space _)]
  · have hnone := searchFrom_keyed_none (b := some ' ') (by decide) (scoreTail_space "cp".toList) (by decide) hmate hvs
    exact hnone
  · intro c
    exact scoreTail_mismatch c _ (by simp [word])

private theorem full_score (r : FullRecord) :
    (keyed "score".toList (scoreTail (scoreKind r.score))).search (Record.full r).print =
      some [showInt (scoreValue r.score)] := by
  rw [print_full]
  exact search_printedScore (headWords r) r.score _ rfl (all_head r (passes_number (by decide)) (by decide))

private theorem full_cp_of_mate (r : FullRecord) (hs : scoreKind r.score = "mate".toList) :
    cpPattern.search (Record.full r).print = none := by
  have hws : ∀ w ∈ [showInt (scoreValue r.score)] ++ boundWords r.bound ++ wdlWords r.wdl ++ backWords r ++
      ["pv".toList], Passes "score".toList w := by
    simp only [List.forall_mem_append, List.forall_mem_singleton]
    exact ⟨⟨⟨⟨passes_showInt _ (by decide), all_bound r.bound (by decide)⟩,
      all_wdl r.wdl (passes_number (by decide)) (by decide)⟩, all_back r (passes_number (by decide)) (by decide)⟩, by decide⟩
  have h := search_otherScore (headWords r) _ (all_head r (passes_number (by decide)) (by decide)) hws
    (all_moves (passes_move (by decide)) r.pv)
  rw [print_full, scoreWords, hs]
  rw [← h, backWords]
  simp only [line_append, line_cons, line_nil, pvText]

private theorem scores_read {text : Str} (s : Score)
    (hkind : (keyed "score".toList (scoreTail (scoreKind s))).search text = some [showInt (scoreValue s)])
    (hmate : scoreKind s = "mate".toList → cpPattern.search text = none) :
    (cpPattern.search text).map (intGroup · 0) = s.printedCp ∧
      (if (cpPattern.search text).isSome then none else (matePattern.search text).map (intGroup · 0)) =
        s.printedMate := by
  cases s with
  | mate plies =>
    have hcp := hmate rfl
    have hm : matePattern.search text = some [showInt (mateMoves plies)] := hkind
    simp [hcp, hm, intGroup, Score.printedCp, Score.printedMate]
  | tablebase plies win =>
    have hcp : cpPattern.search text = some [showInt ((if win then tbCp else -tbCp) - plies)] := hkind
    simp [hcp, intGroup, Score.printedCp, Score.printedMate]
  | internalUnits value =>
    have hcp : cpPattern.search text = some [showInt value] := hkind
    simp [hcp, intGroup, Score.printedCp, Score.printedMate]

theorem parse_full (r : FullRecord) : parseInfoLine (Record.full r).print = (Record.full r).scored := by
  obtain ⟨hcp, hmate⟩ := scores_read r.score (full_score r) (full_cp_of_mate r)
  have hpv : split (pvText r.pv) = r.pv.map (fun m => move m false) := by
    apply split_joined
    intro w hw
    obtain ⟨m, -, rfl⟩ := List.mem_map.mp hw
    exact ⟨move_ne_nil m false, move_clean m false⟩
  rw [parseInfoLine, full_depth, full_nodes, full_time, full_wdl, full_pv]
  simp only [Option.map_some, hcp, hmate, Record.scored, natGroup, List.getD_cons_zero, readNat_showNat,
    Option.map_map, Function.comp_def, List.getD_cons_succ, Prod.mk.eta, Option.map_id']
  split <;> simp [hpv]

def noMovesWords (depth : Nat) : List Str := ["info".toList, "depth".toList, showNat depth]

theorem print_noMoves (depth : Nat) (score : Score) :
    (Record.noMoves depth score).print =
      line (noMovesWords depth) (word "score".toList (word (scoreKind score) (showInt (scoreValue score)))) := by
  have h : (Record.noMoves depth score).print =
    "info depth ".toList ++ showNat depth ++ " score ".toList ++ formatScore score := rfl
  rw [h, formatScore_eq, show "info depth ".toList = "info".toList ++ ' ' :: "depth".toList ++ [' '] from rfl,
    show " score ".toList = ' ' :: "score".toList ++ [' '] from rfl]
  simp only [noMovesWords, List.append_assoc, List.cons_append, List.nil_append, line_cons, line_nil, word]

theorem all_noMoves (depth : Nat) (hz : ∀ z, P (showInt z))
    (hl : ∀ w ∈ ["info".toList, "depth".toList], P w) : ∀ w ∈ noMovesWords depth, P w := by
  simp only [noMovesWords, List.forall_mem_cons] at hl ⊢
  exact ⟨hl.1, hl.2.1, hz depth, hl.2.2⟩

private theorem noMoves_absent {key : Str} {tail : Pattern} (depth : Nat) (score : Score) (hk : IsKey key)
    (ht : SpaceFirst tail) (hl : Lettered key)
    (hw : ∀ w ∈ ["info".toList, "depth".toList, "score".toList, "cp".toList, "mate".toList], Passes key w) :
    (keyed key tail).search (Record.noMoves depth score).print = none := by
  simp only [List.forall_mem_cons] at hw
  obtain ⟨hinfo, hdepth, hscore, hcp, hmate, hnil⟩ := hw
  have hws : ∀ w ∈ noMovesWords depth ++ ["score".toList, scoreKind score], Passes key w := by
    simp only [List.forall_mem_append, List.forall_mem_cons]
    refine ⟨all_noMoves depth (passes_number hl) ?_, hscore, all_kind score ?_, hnil⟩
    · exact List.forall_mem_cons.mpr ⟨hinfo, List.forall_mem_singleton.mpr hdepth⟩
    · exact List.forall_mem_cons.mpr ⟨hcp, List.forall_mem_singleton.mpr hmate⟩
  have h := searchFrom_keyed_none (b := none) hk ht rfl hws
    (List.forall_mem_singleton.mpr (passes_number hl (scoreValue score)))
  rw [line_append] at h
  rw [print_noMoves]
  exact h

private theorem noMoves_score (depth : Nat) (score : Score) :
    (keyed "score".toList (scoreTail (scoreKind score))).search (Record.noMoves depth score).print =
      some [showInt (scoreValue score)] := by
  have h := search_printedScore (noMovesWords depth) score [] rfl
    (all_noMoves depth (passes_number (by decide)) (by decide))
  rw [List.append_nil] at h
  rw [print_noMoves, h]

private theorem noMoves_cp_of_mate (depth : Nat) (score : Score) (hs : scoreKind score = "mate".toList) :
    cpPattern.search (Record.noMoves depth score).print = none := by
  have hlast : ∀ v ∈ [showInt (scoreValue score)], Passes "score".toList v :=
    List.forall_mem_singleton.mpr (passes_number (by decide) (scoreValue score))
  have h := search_otherScore (noMovesWords depth) [] (all_noMoves depth (passes_number (by decide)) (by decide))
    (by decide) hlast
  rw [print_noMoves, hs]
  exact h

theorem parse_noMoves (depth : Nat) (score : Score) :
    parseInfoLine (Record.noMoves depth score).print = (Record.noMoves depth score).scored := by
  obtain ⟨hcp, hmate⟩ := scores_read score (noMoves_score depth score) (noMoves_cp_of_mate depth score)
  have hdepth : depthPattern.search (Record.noMoves depth score).print = some [showNat depth] := by
    rw [print_noMoves]
    exact search_number ["info".toList] (by decide) (by decide) rfl
  have hnodes : nodesPattern.search (Record.noMoves depth score).print = none :=
    noMoves_absent depth score (by decide) spaceFirst_number (by decide) (by decide)
  have htime : timePattern.search (Record.noMoves depth score).print = none :=
    noMoves_absent depth score (by decide) spaceFirst_number (by decide) (by decide)
  have hwdl : wdlPattern.search (Record.noMoves depth score).print = none :=
    noMoves_absent depth score (by decide) wdlTail_space (by decide) (by decide)
  have hpv : pvPattern.search (Record.noMoves depth score).print = none :=
    noMoves_absent depth score (by decide) pvTail_space (by decide) (by decide)
  rw [parseInfoLine, hdepth, hnodes, htime, hwdl, hpv]
  simp only [Option.map_some, Option.map_none, hcp, hmate, Record.scored, natGroup, List.getD_cons_zero,
    readNat_showNat]

private theorem unscored {text : Str} (hcp : cpPattern.search text = none)
    (hmate : matePattern.search text = none) : ∀ p ∈ parseInfoLine text, hasScore p = false := by
  intro p hp
  simp only [parseInfoLine, hcp, hmate, Option.map_none, Option.isSome_none, Option.mem_def,
    Option.map_eq_some_iff] at hp
  obtain ⟨g, -, rfl⟩ := hp
  rfl

def iterWords (depth : Nat) (currmove : Move) : List Str :=
  ["info".toList, "depth".toList, showNat depth, "currmove".toList, move currmove false, "currmovenumber".toList]

theorem print_iter (depth : Nat) (currmove : Move) (n : Nat) :
    (Record.iter depth currmove n).print = line (iterWords depth currmove) (joined [showNat n]) := by
  have h : (Record.iter depth currmove n).print = "info".toList ++ " depth ".toList ++ showNat depth ++
    " currmove ".toList ++ move currmove false ++ " currmovenumber ".toList ++ showNat n := rfl
  rw [h, show " depth ".toList = ' ' :: "depth".toList ++ [' '] from rfl,
    show " currmove ".toList = ' ' :: "currmove".toList ++ [' '] from rfl,
    show " currmovenumber ".toList = ' ' :: "currmovenumber".toList ++ [' '] from rfl]
  simp only [iterWords, List.append_assoc, List.cons_append, List.nil_append, line_cons, line_nil, word, joined]

theorem all_iter (depth : Nat) (currmove : Move) (hz : ∀ z, P (showInt z)) (hm : ∀ m, P (move m false))
    (hl : ∀ w ∈ ["info".toList, "depth".toList, "currmove".toList, "currmovenumber".toList], P w) :
    ∀ w ∈ iterWords depth currmove, P w := by
  simp only [iterWords, List.forall_mem_cons] at hl ⊢
  obtain ⟨hinfo, hdepth, hcurr, hnum, hnil⟩ := hl
  exact ⟨hinfo, hdepth, hz depth, hcurr, hm currmove, hnum, hnil⟩

private theorem iter_absent (kind : Str) (depth : Nat) (currmove : Move) (n : Nat) :
    (keyed "score".toList (scoreTail kind)).search (Record.iter depth currmove n).print = none := by
  rw [print_iter]
  exact searchFrom_keyed_none (by decide) (scoreTail_space kind) rfl
    (all_iter depth currmove (passes_number (by decide)) (passes_move (by decide)) (by decide))
    (List.forall_mem_singleton.mpr (passes_number (by decide) n))

private theorem calm_of_words {ws : List Str} {rest : Str} (hws : ∀ w ∈ ws, 'C' ∉ w) (hr : 'C' ∉ rest) :
    ¬ "CRITICAL ERROR".toList <:+: line ws rest := by
  intro h
  have hc : 'C' ∈ line ws rest := h.subset (by decide)
  rcases mem_line hc with hc | ⟨w, hw, hc⟩ | hc
  · cases hc
  · exact hws w hw hc
  · exact hr hc

private theorem number_calm (z : Int) : 'C' ∉ showInt z := by
  intro h
  rcases mem_showInt h with h | h
  · cases h
  · exact absurd h (by decide)

private theorem move_calm (m : Move) : 'C' ∉ move m false := fun h => absurd (move_chars m false _ h) (by decide)

private theorem pvText_calm (pv : List Move) : 'C' ∉ pvText pv := by
  intro h
  rcases mem_joined h with h | ⟨w, hw, h⟩
  · cases h
  · exact all_moves (P := ('C' ∉ ·)) move_calm pv w hw h

theorem print_calm (r : Record) : ¬ "CRITICAL ERROR".toList <:+: r.print := by
  cases r with
  | full r =>
    rw [print_full_words]
    apply calm_of_words (all_words r number_calm (by decide))
    rw [mem_word, not_or, not_or]
    exact ⟨by decide, by decide, pvText_calm r.pv⟩
  | noMoves depth score =>
    rw [print_noMoves]
    apply calm_of_words (all_noMoves depth number_calm (by decide))
    simp only [mem_word, not_or]
    exact ⟨by decide, by decide, all_kind (P := ('C' ∉ ·)) score (by decide), by decide, number_calm _⟩
  | iter depth currmove n =>
    rw [print_iter]
    exact calm_of_words (all_iter depth currmove number_calm move_calm (by decide)) (number_calm n)
  | infoString s hs he => exact he

theorem print_info (r : Record) : "info ".toList <+: r.print := by
  cases r with
  | full r => rw [print_full]; exact ⟨_, rfl⟩
  | noMoves depth score => rw [print_noMoves]; exact ⟨_, rfl⟩
  | iter depth currmove n => rw [print_iter]; exact ⟨_, rfl⟩
  | infoString s hs he => exact ⟨_, rfl⟩

private theorem scored_hasScore {r : Record} {p : ParsedInfo} (h : r.scored = some p) : hasScore p = true := by
  cases r with
  | full r => cases h; rw [hasScore]; cases r.score <;> rfl
  | noMoves depth score => cases h; rw [hasScore]; cases score <;> rfl
  | iter depth currmove n => cases h
  | infoString s hs he => cases h

private theorem unscored_of_none {r : Record} (h : r.scored = none) : ∀ p ∈ parseInfoLine r.print, hasScore p = false := by
  cases r with
  | full r => cases h
  | noMoves depth score => cases h
  | iter depth currmove n => exact unscored (iter_absent _ depth currmove n) (iter_absent _ depth currmove n)
  | infoString s hs he =>
    exact unscored (searchFrom_keyed_absent (by decide) hs) (searchFrom_keyed_absent (by decide) hs)

private theorem parse_of_scored {r : Record} {p : ParsedInfo} (h : r.scored = some p) :
    parseInfoLine r.print = some p := by
  cases r with
  | full r => rw [parse_full, h]
  | noMoves depth score => rw [parse_noMoves, h]
  | iter depth currmove n => cases h
  | infoString s hs he => cases h

theorem onLine_print (fen : Str) (depth : Int) (s : ReadState) (r : Record) :
    onLine fen depth s r.print =
      .inl (match r.scored with | some p => s.keep depth p | none => s) := by
  unfold onLine
  rw [if_neg (print_calm r), if_pos (print_info r)]
  cases h : r.scored with
  | some p => simp [parse_of_scored h, scored_hasScore h]
  | none =>
    cases hp : parseInfoLine r.print with
    | none => rfl
    | some p => simp [unscored_of_none h p hp]

theorem bestmove_calm (best : Move) (ponder : Option Move) :
    ¬ "CRITICAL ERROR".toList <:+: onBestmove (move best false) (ponder.elim [] (move · false)) := by
  intro h
  have hc : 'C' ∈ onBestmove (move best false) (ponder.elim [] (move · false)) := h.subset (by decide)
  unfold onBestmove at hc
  simp only [List.mem_append] at hc
  rcases hc with (hc | hc) | hc
  · exact absurd hc (by decide)
  · exact move_calm best hc
  · split at hc
    · rcases List.mem_append.mp hc with hc | hc
      · exact absurd hc (by decide)
      · cases ponder with
        | none => cases hc
        | some m => exact move_calm m hc
    · cases hc

theorem bestmove_starts (best ponder : Str) : "bestmove ".toList <+: onBestmove best ponder :=
  ⟨_, (List.append_assoc _ _ _).symm⟩

/-- The records of a transcript that carry a score, in order. -/
def scoredRecords (rs : List Record) : List ParsedInfo := rs.filterMap Record.scored

/-- The last scored record with the wanted depth, or else the last scored record. -/
def selected (depth : Int) (rs : List Record) : Option ParsedInfo :=
  ((scoredRecords rs).filter (fun p => (p.depth : Int) = depth)).getLast?.or (scoredRecords rs).getLast?

private theorem stays_records (fen : Str) (depth : Int) (s : ReadState) (rs : List Record) :
    (evaluateReader fen depth).staysFrom s (rs.map Record.print) =
      some ⟨(scoredRecords rs).getLast?.or s.lastInfo,
        ((scoredRecords rs).filter (fun p => (p.depth : Int) = depth)).getLast?.or s.lastAtDepth⟩ := by
  induction rs generalizing s with
  | nil => rfl
  | cons r rs ih =>
    rw [List.map_cons, Reader.staysFrom_cons_inl (onLine_print fen depth s r), ih, scoredRecords,
      scoredRecords, List.filterMap_cons]
    cases h : r.scored with
    | none => rfl
    | some p =>
      by_cases hd : (p.depth : Int) = depth
      · simp [ReadState.keep, hd, List.getLast?_cons]
      · simp [ReadState.keep, hd, List.getLast?_cons]

theorem evaluate_selected (fen : Str) (depth : Int) (rs : List Record) (best : Move) (ponder : Option Move) :
    evaluate fen depth (rs.map Record.print ++ [onBestmove (move best false) (ponder.elim [] (move · false))]) =
      match selected depth rs with
      | none => .error ⟨"No evaluation received at depth ".toList ++ showInt depth⟩
      | some p => .ok
        { fen, depth := p.depth, scoreCp := p.scoreCp, mateIn := p.mateIn, pv := p.pv.getD []
          nodes := p.nodes, timeMs := p.timeMs, wdl := p.wdl } := by
  have hstays := stays_records fen depth (evaluateReader fen depth).init rs
  rw [evaluate, Reader.run, Reader.runFrom_append hstays,
    Reader.runFrom_cons_inr (onLine_bestmove (bestmove_calm best ponder) (bestmove_starts _ _))]
  simp only [evaluateReader, ReadState.start, Option.or_none]
  rfl

private theorem selected_scored {depth : Int} {rs : List Record} {p : ParsedInfo} (h : selected depth rs = some p) :
    ∃ r ∈ rs, r.scored = some p := by
  have hmem : p ∈ scoredRecords rs := by
    rcases Option.or_eq_some_iff.mp h with h | ⟨-, h⟩
    · exact List.mem_of_mem_filter (List.mem_of_getLast? h)
    · exact List.mem_of_getLast? h
  simpa [scoredRecords] using hmem

private theorem scored_one_kind {r : Record} {p : ParsedInfo} (h : r.scored = some p) :
    p.scoreCp.isSome = !p.mateIn.isSome := by
  cases r with
  | full r => cases h; cases r.score <;> rfl
  | noMoves depth score => cases h; cases score <;> rfl
  | iter depth currmove n => cases h
  | infoString s hs he => cases h

private theorem selected_none (depth : Int) {rs : List Record} :
    selected depth rs = none ↔ ∀ r ∈ rs, r.scored = none := by
  have hnil : scoredRecords rs = [] ↔ ∀ r ∈ rs, r.scored = none := by
    rw [scoredRecords, List.filterMap_eq_nil_iff]
  rw [← hnil, selected, Option.or_eq_none_iff, List.getLast?_eq_none_iff, List.getLast?_eq_none_iff]
  constructor
  · exact And.right
  · exact fun h => ⟨by rw [h]; rfl, h⟩

theorem selected_singleton (depth : Int) {r : Record} {p : ParsedInfo} (h : r.scored = some p) :
    selected depth [r] = some p := by
  have hone : scoredRecords [r] = [p] := by rw [scoredRecords, List.filterMap_cons, h]; rfl
  rw [selected, hone]
  by_cases hd : (p.depth : Int) = depth <;> simp [hd]

/-- On any transcript, `evaluate` returns exactly what its last scored record at the wanted
depth printed, or the last scored record when there is none at that depth, with one kind of
score. It raises exactly when no record carries a score. -/
theorem evaluate_decodes (fen : Str) (depth : Int) (rs : List Record) (best : Move) (ponder : Option Move) :
    let result := evaluate fen depth
      (rs.map Record.print ++ [onBestmove (move best false) (ponder.elim [] (move · false))])
    (∀ p, selected depth rs = some p → p.scoreCp.isSome = !p.mateIn.isSome ∧
      result = .ok { fen, depth := p.depth, scoreCp := p.scoreCp, mateIn := p.mateIn, pv := p.pv.getD []
                     nodes := p.nodes, timeMs := p.timeMs, wdl := p.wdl }) ∧
    ((∃ e, result = .error e) ↔ ∀ r ∈ rs, r.scored = none) := by
  intro result
  have hresult := evaluate_selected fen depth rs best ponder
  rw [← selected_none depth, show result = _ from hresult]
  cases h : selected depth rs with
  | none => simp
  | some p =>
    obtain ⟨r, -, hr⟩ := selected_scored h
    simp [scored_one_kind hr]

end ChessAnalytics.Stockfish
