import ChessAnalytics.Lc0.Correlation

/-! What the dictionary of a query is computed from: its own search, and the position that the FEN
string names, as long as no earlier query gave up waiting. -/
namespace ChessAnalytics.Lc0
open Strings Systems Board

/-- A drain that returned at the deadline or at the end of the output. -/
def Outcome.EndedEarly (o : Outcome) : Prop := ∃ lines ending, o = .returned lines ending ∧ ending ≠ .sentinel

def entries (lines : List Line) (ending : Ending) : List (Option Str) :=
  (lines.map Line.text).map some ++ if ending = .eof then [none] else []

def dictOf (lines : List Line) (ending : Ending) : Except ValueError Heads := query (entries lines ending)

def searchLines (lines : List Line) : List Line := lines.filter fun l => l.searched.isSome

private theorem fold_searched {lines : List Line} (h : ∀ l ∈ lines, l.searched = none → Inert l.text) (heads : Heads) :
    (lines.map Line.text).foldlM onLine heads = ((searchLines lines).map Line.text).foldlM onLine heads := by
  induction lines generalizing heads with
  | nil => rfl
  | cons l lines ih =>
    have hrest := ih fun x hx => h x (List.mem_cons_of_mem _ hx)
    cases hs : l.searched with
    | none =>
      rw [searchLines, List.filter_cons_of_neg (by simp [hs]), List.map_cons, List.foldlM_cons,
        (h l (by simp) hs).2 heads]
      exact hrest heads
    | some state =>
      rw [searchLines, List.filter_cons_of_pos (by simp [hs]), List.map_cons, List.map_cons, List.foldlM_cons,
        List.foldlM_cons]
      exact congrArg _ (funext hrest)

theorem headsOf_searched {lines : List Line} (h : ∀ l ∈ lines, l.searched = none → Inert l.text) :
    headsOf (lines.map Line.text) = headsOf ((searchLines lines).map Line.text) := by
  rw [headsOf, headsOf, fold_searched h]

private theorem readWdl_bestmove (line : Str) (h : Heads) : (readWdl line h).bestmove = h.bestmove := by
  rw [readWdl]
  split
  · split
    · split <;> rfl
    · rfl
  · rfl

/-- A recogniser that leaves the best move alone where its pattern matches leaves it alone. -/
private theorem guarded_bestmove {c : Prop} [Decidable c] {o : Option (List Str)} {f : List Str → Except ValueError Heads}
    {h h' : Heads} (hf : ∀ g h', f g = .ok h' → h'.bestmove = h.bestmove)
    (heq : (if c then (match o with | some g => f g | none => .ok h) else .ok h) = .ok h') : h'.bestmove = h.bestmove := by
  by_cases hc : c
  · rw [if_pos hc] at heq
    cases o with
    | none => cases heq; rfl
    | some g => exact hf g h' heq
  · rw [if_neg hc] at heq
    cases heq
    rfl

private theorem readQ_bestmove {line : Str} {h h' : Heads} (heq : readQ line h = .ok h') : h'.bestmove = h.bestmove := by
  refine guarded_bestmove (fun g h' hg => ?_) heq
  obtain ⟨q, -, hq⟩ := bind_ok hg
  rw [← Except.ok.inj hq]

private theorem readPolicy_bestmove {line : Str} {h h' : Heads} (heq : readPolicy line h = .ok h') :
    h'.bestmove = h.bestmove := by
  refine guarded_bestmove (fun g h' hg => ?_) heq
  obtain ⟨p, -, hp⟩ := bind_ok hg
  rw [← Except.ok.inj hp]

private theorem onLine_open {line : Str} (hline : ¬ sentinel <:+: line) {h h' : Heads} (heq : onLine h line = .ok h') :
    h'.bestmove = h.bestmove := by
  have hpre : ¬ "bestmove ".toList <+: line := fun hc => hline (List.IsInfix.trans (by decide) hc.isInfix)
  obtain ⟨h₁, hq, heq⟩ := bind_ok heq
  obtain ⟨h₂, hp, heq⟩ := bind_ok heq
  rw [← Except.ok.inj heq, readBestmove, if_neg hpre, readPolicy_bestmove hp, readQ_bestmove hq, readWdl_bestmove]

private theorem fold_open {ls : List Str} (hls : ∀ l ∈ ls, ¬ sentinel <:+: l) {h h' : Heads}
    (heq : ls.foldlM onLine h = .ok h') : h'.bestmove = h.bestmove := by
  induction ls generalizing h with
  | nil =>
    cases heq
    rfl
  | cons l ls ih =>
    rw [List.foldlM_cons] at heq
    obtain ⟨h₁, hl, heq⟩ := bind_ok heq
    rw [ih (fun x hx => hls x (List.mem_cons_of_mem _ hx)) heq, onLine_open (hls l (by simp)) hl]

/-- Without the sentinel there is no best move in the dictionary. -/
theorem headsOf_open {ls : List Str} (hls : ∀ l ∈ ls, ¬ sentinel <:+: l) {h : Heads} (heq : headsOf ls = .ok h) :
    h.bestmove = none := by
  obtain ⟨h₁, hf, heq⟩ := bind_ok heq
  rw [← Except.ok.inj heq]
  exact fold_open hls hf

section
variable {b : Behaviour} {queries : List Query} {s : Session} {i : Nat} {lines : List Line} {ending : Ending}

theorem own_of_reachable (hplain : ∀ q ∈ queries, PlainFen b q) (h : Session.Reachable b queries s)
    (hi : s.outcomes[i]? = some (.returned lines ending)) (hbefore : ∀ o ∈ s.outcomes.take i, ¬ o.EndedEarly) :
    Own b queries i lines ending := by
  have hinv := Inv.reachable hplain h
  refine hinv.own i lines ending hi fun o ho => ?_
  cases o with
  | raised => exact absurd ho (hinv.unraised i lines ending hi)
  | returned ls e =>
    by_cases he : e = .sentinel
    · exact ⟨ls, by rw [he]⟩
    · exact absurd ⟨ls, e, rfl, he⟩ (hbefore _ ho)

private theorem exchange_inert {q : Query} (hplain : PlainFen b q) {l : Line} (hl : l ∈ exchange b queries i q)
    (hnone : l.searched = none) : Inert l.text := by
  rcases List.mem_append.mp hl with hl | hl
  · exact (errorLines_inert hplain hl).2.2
  · rw [(mem_goLines hl).2] at hnone
    cases hnone

private theorem searchLines_exchange {q : Query} (hplain : PlainFen b q) :
    searchLines (exchange b queries i q) = goLines b (before b queries i) i q := by
  rw [searchLines, exchange, List.filter_append,
    List.filter_eq_nil_iff.mpr fun l hl => by simp [(errorLines_inert hplain hl).2.1],
    List.filter_eq_self.mpr fun l hl => by simp [(mem_goLines hl).2], List.nil_append]

/-- The drain of the client's loop returns the lines that were taken. -/
theorem Own.dict (h : Own b queries i lines ending) (hplain : ∀ q ∈ queries, PlainFen b q) :
    dictOf lines ending = headsOf ((searchLines lines).map Line.text) := by
  obtain ⟨q, hq, hpre, hall⟩ := h.exchange
  have hpl := hplain q (List.mem_of_getElem? hq)
  rw [← headsOf_searched fun l hl => exchange_inert hpl (hpre.subset hl)]
  refine congrArg headsOf ?_
  by_cases he : ending = .sentinel
  · obtain ⟨hlines, hgo⟩ := hall he
    obtain ⟨init, last, hshape, hinit, hlast⟩ := (goLines_shape b (before b queries i) i q).resolve_left hgo
    have hsplit : lines.map Line.text = ((errorLines b i q ++ init).map Line.text) ++ [last.text] := by
      rw [hlines, Lc0.exchange, hshape]
      simp
    have hopen : ∀ x ∈ (errorLines b i q ++ init).map Line.text, ¬ sentinel <:+: x := by
      simp only [List.forall_mem_map, List.forall_mem_append]
      exact ⟨fun l hl => (errorLines_inert hpl hl).2.2.1, hinit⟩
    rw [entries, hsplit]
    exact drainUntil_append _ hopen (List.IsInfix.trans (by decide) hlast.isInfix)
  · refine drainUntil_open (fun x hx => ?_) ?_
    · obtain ⟨l, hl, rfl⟩ := List.mem_map.mp hx
      exact h.unended he l hl
    · cases ending <;> simp

/-- As long as no earlier query of the session gave up waiting, the dictionary of a query is
computed from lines of its own search only. It has all of them, with the bestmove line, when the
drain met the sentinel, and no best move otherwise. -/
theorem replies_correlated (hplain : ∀ q ∈ queries, PlainFen b q) (h : Session.Reachable b queries s)
    (hi : s.outcomes[i]? = some (.returned lines ending)) (hbefore : ∀ o ∈ s.outcomes.take i, ¬ o.EndedEarly) :
    ∃ q own, queries[i]? = some q ∧ own <+: goLines b (before b queries i) i q ∧ (∀ l ∈ own, l.call = i) ∧
      dictOf lines ending = headsOf (own.map Line.text) ∧
      (ending = .sentinel → own = goLines b (before b queries i) i q ∧ ∃ l ∈ own, "bestmove ".toList <+: l.text) ∧
      (ending ≠ .sentinel → ∀ heads, dictOf lines ending = .ok heads → heads.bestmove = none) := by
  have hown := own_of_reachable hplain h hi hbefore
  have hdict := hown.dict hplain
  obtain ⟨q, hq, hpre, hall⟩ := hown.exchange
  have hpl := hplain q (List.mem_of_getElem? hq)
  have hsearch : searchLines lines <+: goLines b (before b queries i) i q := by
    rw [← searchLines_exchange hpl]
    exact hpre.filter _
  refine ⟨q, searchLines lines, hq, hsearch, fun l hl => (mem_goLines (hsearch.subset hl)).1, hdict, fun he => ?_,
    fun he heads hheads => ?_⟩
  · obtain ⟨hlines, hgo⟩ := hall he
    obtain ⟨init, last, hshape, -, hlast⟩ := (goLines_shape b (before b queries i) i q).resolve_left hgo
    rw [hlines, searchLines_exchange hpl]
    exact ⟨rfl, last, by rw [hshape]; simp, hlast⟩
  · refine headsOf_open (fun x hx => ?_) (hdict.symm.trans hheads)
    obtain ⟨l, hl, rfl⟩ := List.mem_map.mp hx
    exact hown.unended he l (List.mem_of_mem_filter hl)

end

def kingsFen : Fen := ⟨"8/8/8/8/8/8/8/K6k w - - 0 1".toList, by decide⟩

/-- python-chess writes this FEN string too, and lc0 rejects it. -/
def pawnFen : Fen := ⟨"P7/8/8/8/8/8/8/K6k w - - 0 1".toList, by decide⟩

def kingsQueries : List Query := [⟨kingsFen, none⟩, ⟨kingsFen, none⟩]

def pawnQueries : List Query := [⟨kingsFen, none⟩, ⟨pawnFen, none⟩]

/-- lc0 answers the first query with a move up, the second one with a move to the right. -/
def upThenRight : Behaviour where
  playMove _ _ := .error []
  answers i _ _ :=
    if i = 0 then ⟨[], "bestmove a1a2".toList, by simp, by decide⟩ else ⟨[], "bestmove a1b1".toList, by simp, by decide⟩

private theorem kings_accepted : ∃ state, readPosition upThenRight ⟨kingsFen, none⟩ = .ok state := ⟨_, rfl⟩

theorem kings_plain : ∀ q ∈ kingsQueries, PlainFen upThenRight q := by
  obtain ⟨state, hstate⟩ := kings_accepted
  intro q hq msg hmsg
  simp only [kingsQueries, List.mem_cons, List.not_mem_nil, or_false, or_self] at hq
  rw [hq, hstate] at hmsg
  cases hmsg

def pawnError : Str := "Bad fen string (pawn on back rank): P7/8/8/8/8/8/8/K6k w - - 0 1".toList

private theorem pawn_rejected : readPosition upThenRight ⟨pawnFen, none⟩ = .error pawnError := by decide +kernel

theorem pawn_plain : ∀ q ∈ pawnQueries, PlainFen upThenRight q := by
  obtain ⟨state, hstate⟩ := kings_accepted
  simp only [pawnQueries, List.forall_mem_cons]
  refine ⟨fun msg hmsg => ?_, fun msg hmsg => ?_, fun q hq => (List.not_mem_nil hq).elim⟩
  · rw [hstate] at hmsg
    cases hmsg
  · rw [pawn_rejected] at hmsg
    rw [← Except.error.inj hmsg]
    exact inert_of_absent (by decide +kernel) (by decide +kernel)

/-- The events of a query that is answered in time. -/
def promptEvents : List Event := [.send, .send, .execute, .execute, .print, .read, .take]

/-- The second query is answered in time too; the error line comes in front of its answer. -/
def rejectedEvents : List Event := promptEvents ++ [.send, .send, .execute, .execute, .print, .read, .read, .take, .take]

/-- The first search answers behind the deadline of its query, and the second query takes that answer. -/
def lateEvents : List Event := [.send, .send, .execute, .execute, .deadline, .print, .read, .send, .send, .take]

private theorem rejected_runs : (Session.run upThenRight pawnQueries {} rejectedEvents).isSome = true := by decide +kernel
private theorem late_runs : (Session.run upThenRight kingsQueries {} lateEvents).isSome = true := by decide +kernel

def rejectedSession : Session := (Session.run upThenRight pawnQueries {} rejectedEvents).get rejected_runs
def lateSession : Session := (Session.run upThenRight kingsQueries {} lateEvents).get late_runs

theorem rejectedSession_reachable : Session.Reachable upThenRight pawnQueries rejectedSession :=
  Session.reachable_of_run .start (Option.some_get rejected_runs).symm

private theorem lateSession_reachable : Session.Reachable upThenRight kingsQueries lateSession :=
  Session.reachable_of_run .start (Option.some_get late_runs).symm

/-- The state that the FEN string of the kings names. -/
def kingsState : GameState := (readPosition upThenRight ⟨kingsFen, none⟩).toOption.getD startState

/-- What the second query reads. -/
def rejectedLines : List Line := [⟨1, none, "error ".toList ++ pawnError⟩, ⟨1, some kingsState, "bestmove a1b1".toList⟩]

theorem rejectedSession_outcomes : rejectedSession.outcomes =
    [.returned [⟨0, some kingsState, "bestmove a1a2".toList⟩] .sentinel, .returned rejectedLines .sentinel] := by
  decide +kernel

theorem rejectedSession_before : ∀ o ∈ rejectedSession.outcomes.take 1, ¬ o.EndedEarly := by
  rw [rejectedSession_outcomes, List.take_one, List.head?_cons, Option.toList_some, List.forall_mem_singleton]
  rintro ⟨lines, ending, heq, hne⟩
  cases heq
  exact hne rfl

/-- The second of two queries that are answered in time: its dictionary comes from its own search,
and neither the first answer nor the error line in front of its own has a part in it. -/
theorem replies_correlated_second :
    ∃ q own, pawnQueries[1]? = some q ∧ own <+: goLines upThenRight (before upThenRight pawnQueries 1) 1 q ∧
      (∀ l ∈ own, l.call = 1) ∧
      dictOf rejectedLines .sentinel = headsOf (own.map Line.text) ∧
      (Ending.sentinel = .sentinel → own = goLines upThenRight (before upThenRight pawnQueries 1) 1 q ∧
        ∃ l ∈ own, "bestmove ".toList <+: l.text) ∧
      (Ending.sentinel ≠ .sentinel → ∀ heads, dictOf rejectedLines .sentinel = .ok heads → heads.bestmove = none) :=
  replies_correlated pawn_plain rejectedSession_reachable (by rw [rejectedSession_outcomes]; rfl) rejectedSession_before

/-- The late answer to the first query. -/
def lateLines : List Line := [⟨0, some kingsState, "bestmove a1a2".toList⟩]

/-- A query that gave up waiting leaves its answer to the next one. -/
theorem late_reply_mixed :
    (∀ q ∈ kingsQueries, PlainFen upThenRight q) ∧ Session.Reachable upThenRight kingsQueries lateSession ∧
      lateSession.outcomes[1]? = some (.returned lateLines .sentinel) ∧ (∃ l ∈ lateLines, l.call = 0) ∧
      (dictOf lateLines .sentinel).map Heads.bestmove = .ok (some "a1a2".toList) :=
  ⟨kings_plain, lateSession_reachable, by decide +kernel, ⟨_, List.mem_singleton_self _, rfl⟩, by decide +kernel⟩

end ChessAnalytics.Lc0
