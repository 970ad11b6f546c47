import ChessAnalytics.Lc0.Replies

/-! Whether the heads of a query are those of the position that its FEN string names. -/
namespace ChessAnalytics.Lc0
open Strings Systems Board

/-- The position that a FEN string names, in lc0's reading of its fields. A word that the position
command takes for a keyword is no field. -/
def fenState (fen : Str) : Option GameState :=
  match words fen with
  | [] => none
  | w :: ws =>
    if (w :: ws).any positionKeywords.contains then none
    else (Position.fromFen (joined (w :: ws))).toOption.map (⟨·, []⟩)

/-- Every search line that the query has read is of a search on the position that was asked for. -/
def AboutFen (fen : Str) (lines : List Line) : Prop :=
  ∀ l ∈ lines, ∀ state, l.searched = some state → fenState fen = some state

private theorem words_ne_nil {fen w : Str} (h : w ∈ words fen) : w ≠ [] := by
  rintro rfl
  have := (List.mem_filter.mp h).2
  simp at this

/-- A FEN string that names a position has a field, and no field that is a keyword. -/
theorem fenState_some {fen : Str} {state : GameState} (h : fenState fen = some state) :
    joined (words fen) ≠ [] ∧ (∀ w ∈ words fen, w ∉ positionKeywords) ∧
      ∃ pos, Position.fromFen (joined (words fen)) = .ok pos ∧ state = ⟨pos, []⟩ := by
  rw [fenState] at h
  split at h
  · cases h
  · rename_i w ws hwords
    split at h
    · cases h
    · rename_i hkeywords
      obtain ⟨pos, hpos, rfl⟩ := Option.map_eq_some_iff.mp h
      rw [hwords]
      refine ⟨?_, fun v hv hmem => hkeywords ?_, pos, ?_, rfl⟩
      · have hw : w ∈ words fen := by rw [hwords]; simp
        rw [joined_cons, Ne, List.append_eq_nil_iff]
        exact fun hnil => words_ne_nil hw hnil.1
      · exact List.any_eq_true.mpr ⟨v, hv, List.contains_iff_mem.mpr hmem⟩
      · cases hf : Position.fromFen (joined (w :: ws)) with
        | error msg => rw [hf] at hpos; cases hpos
        | ok p => rw [hf] at hpos; cases hpos; rfl

section
variable {b : Behaviour} {queries : List Query} {s : Session} {i : Nat} {lines : List Line} {ending : Ending}

theorem readPosition_fenState {q : Query} {state : GameState} (h : fenState q.fen.val = some state) :
    readPosition b q = .ok state := by
  obtain ⟨hne, hkeywords, pos, hfen, rfl⟩ := fenState_some h
  rw [readPosition, processLine_fen hkeywords, if_neg hne]
  change makeGameState b.playMove (joined (words q.fen.val)) [] = _
  rw [makeGameState_nil, hfen]
  rfl

/-- As long as no earlier query of the session gave up waiting, a query that has read a search
line has read about its own position exactly if lc0 accepts the FEN string. When lc0 prints an
error for it, the search is on the last position that was set, or on the start position. -/
theorem heads_for_fen_iff (hplain : ∀ q ∈ queries, PlainFen b q) (h : Session.Reachable b queries s)
    (hi : s.outcomes[i]? = some (.returned lines ending)) (hbefore : ∀ o ∈ s.outcomes.take i, ¬ o.EndedEarly) :
    ∃ q, queries[i]? = some q ∧
      ((fenState q.fen.val).isSome → AboutFen q.fen.val lines) ∧
      ((∃ l ∈ lines, l.searched.isSome) → (AboutFen q.fen.val lines ↔ (fenState q.fen.val).isSome)) ∧
      ((∃ msg, readPosition b q = .error msg) → ∀ l ∈ lines, ∀ state, l.searched = some state →
        state = (before b queries i).getD startState) := by
  obtain ⟨q, hq, hpre, -⟩ := (own_of_reachable hplain h hi hbefore).exchange
  have hpl := hplain q (List.mem_of_getElem? hq)
  have hsearched {l : Line} (hl : l ∈ lines) {state : GameState} (hs : l.searched = some state) :
      state = searchedState b (before b queries i) q := by
    rcases List.mem_append.mp (hpre.subset hl) with hl | hl
    · rw [(errorLines_inert hpl hl).2.1] at hs
      cases hs
    · exact (Option.some_inj.mp ((mem_goLines hl).2.symm.trans hs)).symm
  have hasked (hsome : (fenState q.fen.val).isSome) : AboutFen q.fen.val lines := by
    obtain ⟨state, hstate⟩ := Option.isSome_iff_exists.mp hsome
    intro l hl found hfound
    rw [hsearched hl hfound, searchedState, positionAfter, readPosition_fenState hstate]
    exact hstate
  refine ⟨q, hq, hasked, fun hread => ⟨fun habout => ?_, hasked⟩, fun hrejected l hl state hs => ?_⟩
  · obtain ⟨l, hl, hsome⟩ := hread
    obtain ⟨state, hstate⟩ := Option.isSome_iff_exists.mp hsome
    rw [habout l hl state hstate]
    rfl
  · obtain ⟨msg, hmsg⟩ := hrejected
    rw [hsearched hl hs, searchedState, positionAfter, hmsg]

end

/-- The second query of the session is for a position that lc0 rejects: what it reads is not about
its own position. -/
theorem heads_for_fen_rejected :
    ∃ q, pawnQueries[1]? = some q ∧
      ((fenState q.fen.val).isSome → AboutFen q.fen.val rejectedLines) ∧
      ((∃ l ∈ rejectedLines, l.searched.isSome) → (AboutFen q.fen.val rejectedLines ↔ (fenState q.fen.val).isSome)) ∧
      ((∃ msg, readPosition upThenRight q = .error msg) → ∀ l ∈ rejectedLines, ∀ state, l.searched = some state →
        state = (before upThenRight pawnQueries 1).getD startState) :=
  heads_for_fen_iff pawn_plain rejectedSession_reachable (by rw [rejectedSession_outcomes]; rfl) rejectedSession_before

/-- The query for the position that lc0 rejects returns the best move of the position before it. -/
theorem rejected_fen_answered :
    Session.Reachable upThenRight pawnQueries rejectedSession ∧
      rejectedSession.outcomes[1]? = some (.returned rejectedLines .sentinel) ∧
      (∀ o ∈ rejectedSession.outcomes.take 1, ¬ o.EndedEarly) ∧
      (dictOf rejectedLines .sentinel).map Heads.bestmove = .ok (some "a1b1".toList) ∧
      pawnQueries[0]? = some ⟨kingsFen, none⟩ ∧ pawnQueries[1]? = some ⟨pawnFen, none⟩ ∧ fenState pawnFen.val = none ∧
      ∃ l ∈ rejectedLines, ∃ state, l.searched = some state ∧ fenState kingsFen.val = some state :=
  ⟨rejectedSession_reachable, by rw [rejectedSession_outcomes]; rfl, rejectedSession_before, by decide +kernel, rfl, rfl,
    by decide +kernel, ⟨1, some kingsState, "bestmove a1b1".toList⟩, List.mem_cons_of_mem _ (List.mem_singleton_self _),
    kingsState, rfl, by decide +kernel⟩

end ChessAnalytics.Lc0
