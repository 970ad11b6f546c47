import ChessAnalytics.Candidates.Evaluate

/-! The blocks of lines of a search with several variations, and what `evaluate` makes of them. -/
namespace ChessAnalytics.Candidates
open Strings Stockfish Systems

def valueInfinite : Int := 32001

/-- What `SearchManager::pv` reads of a root move. -/
structure RootMove where
  score : Int
  uciScore : Int
  previousScore : Int
  tbScore : Int
  scoreLowerbound : Bool
  scoreUpperbound : Bool
  selDepth : Nat
  pv : List Move

/-- What it reads beside the root moves. The texts of a value come from the position. -/
structure Reporting where
  rootInTB : Bool
  isMateOrMated : Int → Bool
  isDecisive : Int → Bool
  syzygyExtendPv : List Move → Int → List Move × Int
  score : Int → Score
  wdl : Int → Option (Nat × Nat × Nat)
  nodes : Nat
  elapsed : Nat
  tbHits : Nat
  hashfull : Nat

def usesPreviousScore (m : RootMove) : Bool := decide (m.score = -valueInfinite)

/-- What one turn of the loop reports of the root move with the index `i`. -/
def reportedLine (s : Reporting) (depth i : Nat) (m : RootMove) : FullRecord :=
  let d := if usesPreviousScore m then max 1 (depth - 1) else depth
  let v := if usesPreviousScore m then m.previousScore else m.uciScore
  let v := if v = -valueInfinite then 0 else v
  let isTBScore := s.rootInTB && !s.isMateOrMated v
  let v := if isTBScore then m.tbScore else v
  let extend := s.isDecisive v && !s.isMateOrMated v && (!(m.scoreLowerbound || m.scoreUpperbound) || isTBScore)
  let extended := if extend then s.syzygyExtendPv m.pv v else (m.pv, v)
  let bound := if m.scoreLowerbound then some Bound.lower else if m.scoreUpperbound then some Bound.upper else none
  let time := max 1 s.elapsed
  { depth := d, selDepth := m.selDepth, multiPV := i + 1, score := s.score extended.2
    bound := if isTBScore || usesPreviousScore m then none else bound
    wdl := s.wdl extended.2, nodes := s.nodes, nps := s.nodes * 1000 / time, hashfull := s.hashfull
    tbHits := s.tbHits, timeMs := time, pv := extended.1 }

/-- One turn of the loop. In the first iteration the root moves behind the first may be left out. -/
def pvLine (s : Reporting) (depth i : Nat) (m : RootMove) : Option FullRecord :=
  if depth = 1 ∧ usesPreviousScore m = true ∧ i > 0 then none else some (reportedLine s depth i m)

def pvLoop (s : Reporting) (depth : Nat) : Nat → List RootMove → List FullRecord
  | _, [] => []
  | i, m :: moves => (pvLine s depth i m).toList ++ pvLoop s depth (i + 1) moves

/-- `SearchManager::pv`. -/
def pvBlock (s : Reporting) (multiPV depth : Nat) (rootMoves : List RootMove) : List FullRecord :=
  pvLoop s depth 0 (rootMoves.take (min multiPV rootMoves.length))

/-- Ranks in increasing order up to `m`. -/
structure IsBlock (m : Nat) (block : List FullRecord) : Prop where
  increasing : (block.map FullRecord.multiPV).Pairwise (· < ·)
  within : ∀ r ∈ block, 1 ≤ r.multiPV ∧ r.multiPV ≤ m

theorem pvLine_rank {s : Reporting} {depth i : Nat} {m : RootMove} {r : FullRecord} (h : pvLine s depth i m = some r) :
    r.multiPV = i + 1 := by
  rw [pvLine] at h
  split at h
  · cases h
  · obtain rfl := Option.some_inj.mp h
    rfl

private theorem ranks_sublist (s : Reporting) (depth i : Nat) (moves : List RootMove) :
    ((pvLoop s depth i moves).map FullRecord.multiPV).Sublist (List.range' (i + 1) moves.length) := by
  induction moves generalizing i with
  | nil => exact List.Sublist.refl _
  | cons m moves ih =>
    rw [pvLoop, List.length_cons, List.range'_succ, List.map_append]
    cases h : pvLine s depth i m with
    | none => exact (ih (i + 1)).cons _
    | some r =>
      have hrank : i + 1 = r.multiPV := (pvLine_rank h).symm
      rw [Option.toList_some, List.map_singleton, ← hrank]
      exact (ih (i + 1)).cons_cons _

private theorem ranks_eq (s : Reporting) {depth : Nat} (hdepth : depth ≠ 1) (i : Nat) (moves : List RootMove) :
    (pvLoop s depth i moves).map FullRecord.multiPV = List.range' (i + 1) moves.length := by
  induction moves generalizing i with
  | nil => rfl
  | cons m moves ih =>
    have hline : pvLine s depth i m = some (reportedLine s depth i m) := if_neg fun h => hdepth h.1
    rw [pvLoop, hline, List.map_append, ih, List.length_cons, List.range'_succ]
    rfl

private theorem length_shown (multiPV : Nat) (rootMoves : List RootMove) :
    (rootMoves.take (min multiPV rootMoves.length)).length = min multiPV rootMoves.length := by
  rw [List.length_take, Nat.min_eq_left (Nat.min_le_right _ _)]

/-- `SearchManager::pv` prints blocks. -/
theorem pvBlock_isBlock (s : Reporting) (multiPV depth : Nat) (rootMoves : List RootMove) :
    IsBlock (min multiPV rootMoves.length) (pvBlock s multiPV depth rootMoves) := by
  have hsub := ranks_sublist s depth 0 (rootMoves.take (min multiPV rootMoves.length))
  rw [length_shown] at hsub
  refine ⟨List.Pairwise.sublist hsub List.pairwise_lt_range', fun r hr => ?_⟩
  have hrank := hsub.subset (List.mem_map_of_mem hr)
  rw [List.mem_range'_1] at hrank
  omega

theorem pvBlock_ranks (s : Reporting) (multiPV : Nat) {depth : Nat} (hdepth : depth ≠ 1) (rootMoves : List RootMove) :
    (pvBlock s multiPV depth rootMoves).map FullRecord.multiPV = List.range' 1 (min multiPV rootMoves.length) := by
  have h := ranks_eq s hdepth 0 (rootMoves.take (min multiPV rootMoves.length))
  rw [length_shown] at h
  exact h

/-- The line with scores that a record is, if it is one of `on_update_full`. -/
def fullOf : Record → Option FullRecord
  | .full r => some r
  | _ => none

def fullEntry (r : FullRecord) : Int × List Str := (r.multiPV, fullWords r)

theorem entries_of_lines {rs : List Record} (h : ∀ depth score, Record.noMoves depth score ∉ rs) :
    rs.filterMap entryOf = (rs.filterMap fullOf).map fullEntry := by
  rw [List.map_filterMap]
  refine List.filterMap_congr fun r hr => ?_
  cases r with
  | full r => rfl
  | noMoves depth score => exact absurd hr (h depth score)
  | iter depth currmove n => rfl
  | infoString s hs he => rfl

def firstMove (r : FullRecord) : Option Str := (pvTexts r.pv).head?

/-- Blocks of up to `m` ranks with other lines between them. The last block has all ranks, with
different first moves. -/
structure Transcript (m : Nat) where
  early : List (List FullRecord)
  last : List FullRecord
  records : List Record
  blocks : records.filterMap fullOf = early.flatten ++ last
  scores : ∀ depth score, Record.noMoves depth score ∉ records
  early_block : ∀ b ∈ early, IsBlock m b
  last_ranks : last.map FullRecord.multiPV = List.range' 1 m
  last_moves : ∀ r ∈ last, r.pv ≠ []
  distinct : (last.map firstMove).Nodup

def ranks (m : Nat) : List Int := (List.range' 1 m).map Nat.cast

def candidateOf (r : FullRecord) : Candidate := ⟨r.multiPV, some (shownScore r.score), firstMove r, pvTexts r.pv⟩

theorem candidate_full (r : FullRecord) : candidate r.multiPV (fullWords r) = .ok (candidateOf r) := by
  rw [candidate, parseScore_full, parsePv_full]
  rfl

section
variable {m : Nat} (t : Transcript m)

private theorem entries_eq : t.records.filterMap entryOf = (t.early.flatten ++ t.last).map fullEntry := by
  rw [← t.blocks, entries_of_lines t.scores]

private theorem last_keys : (t.last.map fullEntry).map Prod.fst = ranks m := by
  rw [ranks, ← t.last_ranks, List.map_map, List.map_map]
  rfl

private theorem last_keys_nodup : ((t.last.map fullEntry).map Prod.fst).Nodup := by
  rw [last_keys]
  exact (List.nodup_range' (s := 1) (n := m)).map Nat.cast_injective

private theorem sortedKeys_last :
    sortedKeys (kept t.records) = (t.last.map fullEntry).map Prod.fst := by
  refine sortedKeys_eq ?_ fun k => ?_
  · rw [last_keys, ranks, List.pairwise_map]
    exact (List.pairwise_lt_range' (s := 1) (n := m)).imp fun hlt => Int.ofNat_lt.mpr hlt
  · rw [kept, mem_keepLast, entries_eq, List.map_append, List.map_append, List.mem_append]
    constructor
    · rintro (h | h | h)
      · cases h
      · obtain ⟨e, he, rfl⟩ := List.mem_map.mp h
        obtain ⟨r, hr, rfl⟩ := List.mem_map.mp he
        obtain ⟨b, hb, hrb⟩ := List.mem_flatten.mp hr
        have hwithin := (t.early_block b hb).within r hrb
        rw [last_keys]
        exact List.mem_map.mpr ⟨r.multiPV, List.mem_range'_1.mpr ⟨hwithin.1, by omega⟩, rfl⟩
      · exact h
    · exact fun h => .inr (.inr h)

private theorem lookup_last {r : FullRecord} (hr : r ∈ t.last) :
    (kept t.records).lookup (r.multiPV : Int) = some (fullWords r) := by
  rw [kept, entries_eq, List.map_append, keepLast_append]
  exact lookup_keepLast_of_mem (last_keys_nodup t) (List.mem_map.mpr ⟨r, hr, rfl⟩)

private theorem results_last : (sortedKeys (kept t.records)).mapM (fun rank =>
    candidate rank (((kept t.records).lookup rank).getD [])) = .ok (t.last.map candidateOf) := by
  rw [sortedKeys_last, List.map_map, List.mapM_map]
  refine mapM_ok fun r hr => ?_
  have hrank : (Prod.fst ∘ fullEntry) r = (r.multiPV : Int) := rfl
  rw [Function.comp_apply, hrank, lookup_last t hr]
  exact candidate_full r

/-- With more than one variation, `evaluate` returns the last block: all ranks in their order, each
with the score, the move and the variation of its own line there, and no move twice. -/
theorem no_stale_variation (k : Int) (hk : 2 ≤ k) (best : Move) (ponder : Option Move) :
    ∃ results, evaluate k (t.records.map Record.print ++
        [onBestmove (move best false) (ponder.elim [] (move · false))]) = .ok (.ranked results) ∧
      results = t.last.map candidateOf ∧ results.map Candidate.rank = ranks m ∧
      (results.map Candidate.move).Nodup ∧ ∀ c ∈ results, c.move ≠ none := by
  refine ⟨_, evaluate_many best ponder (by omega) (results_last t), rfl, ?_, ?_, fun c hc => ?_⟩
  · rw [← last_keys t, List.map_map, List.map_map]
    rfl
  · rw [List.map_map]
    exact t.distinct
  · obtain ⟨r, hr, rfl⟩ := List.mem_map.mp hc
    obtain ⟨m, pv, hpv⟩ := List.exists_cons_of_ne_nil (t.last_moves r hr)
    rw [candidateOf, firstMove, pvTexts, hpv]
    exact Option.some_ne_none _

end

def kingPawn : Move := ⟨makeSquare 4 1, makeSquare 4 3, .normal, .knight⟩
def queenPawn : Move := ⟨makeSquare 3 1, makeSquare 3 3, .normal, .knight⟩

def variation (depth rank : Nat) (cp : Int) (m : Move) : FullRecord :=
  ⟨depth, depth, rank, .internalUnits cp, none, none, 400, 40000, 0, 0, 10, [m]⟩

/-- A search that leaves the second rank out at first, and then finds the other move better. -/
def twoVariations : Transcript 2 where
  early := [[variation 1 1 20 kingPawn]]
  last := [variation 2 1 35 queenPawn, variation 2 2 30 kingPawn]
  records := [.full (variation 1 1 20 kingPawn), .iter 2 kingPawn 1, .full (variation 2 1 35 queenPawn),
    .full (variation 2 2 30 kingPawn)]
  blocks := rfl
  scores depth score h := by simp at h
  early_block b hb := by
    obtain rfl := List.mem_singleton.mp hb
    exact ⟨List.pairwise_singleton _ _, fun r hr => by obtain rfl := List.mem_singleton.mp hr; decide⟩
  last_ranks := rfl
  last_moves := by simp [variation]
  distinct := by decide

theorem no_stale_variation_two : ∃ results, evaluate 2 (twoVariations.records.map Record.print ++
      [onBestmove (move queenPawn false) ((some kingPawn).elim [] (move · false))]) = .ok (.ranked results) ∧
    results = twoVariations.last.map candidateOf ∧ results.map Candidate.rank = ranks 2 ∧
    (results.map Candidate.move).Nodup ∧ ∀ c ∈ results, c.move ≠ none :=
  no_stale_variation twoVariations 2 le_rfl queenPawn (some kingPawn)

end ChessAnalytics.Candidates
