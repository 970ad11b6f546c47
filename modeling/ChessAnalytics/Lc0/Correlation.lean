import ChessAnalytics.Lc0.Session

/-! Which lines a query reads: the exchange that its two commands start, and the invariant that
keeps every exchange apart from the others as long as each drain ends on its sentinel. -/
namespace ChessAnalytics.Lc0
open Strings Systems Board

def readPosition (b : Behaviour) (q : Query) : Except Str GameState :=
  match processLine (positionCommand q) with
  | .ok (some (.position fen moves)) => makeGameState b.playMove fen moves
  | .ok _ => .error []
  | .error msg => .error msg

def startState : GameState :=
  match Position.fromFen startposFen with
  | .ok startpos => ⟨startpos, []⟩
  | .error _ => ⟨{ board := {} }, []⟩

theorem makeGameState_startpos (playMove : PlayMove) : makeGameState playMove startposFen [] = .ok startState := by
  rw [makeGameState_nil, startState]
  rfl

def nodesOf (q : Query) : Int := q.nodes.getD defaultNodes

def positionAfter (b : Behaviour) (p : Option GameState) (q : Query) : Option GameState :=
  match readPosition b q with
  | .ok state => some state
  | .error _ => p

/-- The position that the search of a query is on, when it finds the engine at `p`. -/
def searchedState (b : Behaviour) (p : Option GameState) (q : Query) : GameState := (positionAfter b p q).getD startState

/-- The engine's position before the query with this number. -/
def before (b : Behaviour) (queries : List Query) : Nat → Option GameState
  | 0 => none
  | i + 1 =>
    match queries[i]? with
    | some q =>
      if ChessBoard.fitsInt (nodesOf q) then some (searchedState b (before b queries i) q)
      else positionAfter b (before b queries i) q
    | none => before b queries i

/-- The lines of the search that the `go` of a query starts. -/
def goLines (b : Behaviour) (p : Option GameState) (i : Nat) (q : Query) : List Line :=
  if ChessBoard.fitsInt (nodesOf q) then
    (b.answers i (searchedState b p q) { nodes := some (nodesOf q) }).lines.map (⟨i, some (searchedState b p q), ·⟩)
  else []

/-- The error lines that the two commands of a query print. -/
def errorLines (b : Behaviour) (i : Nat) (q : Query) : List Line :=
  (match readPosition b q with
    | .ok _ => []
    | .error msg => [errorLine i msg]) ++
  if ChessBoard.fitsInt (nodesOf q) then []
  else [errorLine i ("out of range value ".toList ++ showInt (nodesOf q))]

def commands (i : Nat) (q : Query) : List (Nat × Str) := [(i, positionCommand q), (i, goCommand q)]

/-- All lines that are still to come when the engine works through these commands. -/
def owed (b : Behaviour) : Engine → List (Nat × Str) → List Line
  | e, [] => e.searchLines
  | e, c :: cs => (e.execute b c).2 ++ owed b (e.execute b c).1 cs

/-- The position behind these commands. -/
def settled (b : Behaviour) : Engine → List (Nat × Str) → Option GameState
  | e, [] => e.position
  | e, c :: cs => settled b (e.execute b c).1 cs

section
variable {b : Behaviour} {e : Engine} {i : Nat} {q : Query}

theorem lines_ofAnswer (call : Nat) (state : GameState) (a : Answer) :
    (Search.ofAnswer call state a).lines = a.lines.map (⟨call, some state, ·⟩) := by
  rw [Search.ofAnswer, Answer.lines]
  cases a.infos <;> rfl

theorem execute_position (he : e.search = none) :
    e.execute b (i, positionCommand q) =
      (⟨positionAfter b e.position q, none⟩, match readPosition b q with
        | .ok _ => []
        | .error msg => [errorLine i msg]) := by
  have heq : e = ⟨e.position, none⟩ := by cases e; cases he; rfl
  rw [Engine.execute, positionAfter, readPosition]
  rcases processLine_position q with ⟨msg, h⟩ | ⟨fen, moves, h⟩
  · simp only [h]
    rw [← heq]
  · simp only [h, Engine.setPosition]
    cases makeGameState b.playMove fen moves <;> rfl

private theorem ensurePosition_eq (he : e.search = none) (playMove : PlayMove) :
    e.ensurePosition playMove = (⟨some (e.position.getD startState), none⟩, .ok ()) := by
  obtain ⟨position, search⟩ := e
  cases he
  rw [Engine.ensurePosition]
  cases position with
  | some state => rfl
  | none => simp only [Engine.setPosition, makeGameState_startpos]; rfl

theorem execute_go (he : e.search = none) :
    e.execute b (i, goCommand q) =
      if ChessBoard.fitsInt (nodesOf q) then
        (⟨some (e.position.getD startState), some (.ofAnswer i (e.position.getD startState)
          (b.answers i (e.position.getD startState) { nodes := some (nodesOf q) }))⟩, [])
      else (e, [errorLine i ("out of range value ".toList ++ showInt (nodesOf q))]) := by
  rw [Engine.execute]
  simp only [processLine_go]
  by_cases hfits : ChessBoard.fitsInt (nodesOf q)
  · rw [if_pos hfits]
    have hgo : q.nodes.getD defaultNodes = nodesOf q := rfl
    simp only [hgo, if_pos hfits, Engine.go, Bool.false_eq_true, if_false, ensurePosition_eq he]
  · rw [if_neg hfits]
    have hgo : q.nodes.getD defaultNodes = nodesOf q := rfl
    simp only [hgo, if_neg hfits]

theorem owed_commands (p : Option GameState) :
    owed b ⟨p, none⟩ (commands i q) = errorLines b i q ++ goLines b p i q := by
  rw [commands, owed, execute_position rfl, owed, execute_go rfl, owed, errorLines, goLines, List.append_assoc]
  by_cases hfits : ChessBoard.fitsInt (nodesOf q)
  · simp only [if_pos hfits, List.nil_append, Engine.searchLines, Option.map_some, Option.getD_some, lines_ofAnswer]
    rfl
  · simp only [if_neg hfits, Engine.searchLines, Option.map_none, Option.getD_none]

theorem settled_commands {queries : List Query} (hq : queries[i]? = some q) :
    settled b ⟨before b queries i, none⟩ (commands i q) = before b queries (i + 1) := by
  rw [commands, settled, execute_position rfl, settled, execute_go rfl, settled, before, hq]
  by_cases hfits : ChessBoard.fitsInt (nodesOf q)
  · simp only [if_pos hfits]
    rfl
  · simp only [if_neg hfits]

end

/-- The drain goes on behind this line, and the loop makes nothing of it. -/
def Inert (text : Str) : Prop := ¬ sentinel <:+: text ∧ ∀ h, onLine h text = .ok h

theorem inert_of_absent {text : Str} (hbest : ¬ sentinel <:+: text) (hinfo : ¬ "info".toList <:+: text) : Inert text := by
  have hdepth : ¬ "info depth".toList <:+: text := fun h => hinfo (List.IsInfix.trans (by decide) h)
  have hnode : ¬ "info string node".toList <:+: text := fun h => hinfo (List.IsInfix.trans (by decide) h)
  have hstring : ¬ "info string".toList <:+: text := fun h => hinfo (List.IsInfix.trans (by decide) h)
  have hmove : ¬ "bestmove ".toList <+: text := fun h => hbest (List.IsInfix.trans (by decide) h.isInfix)
  refine ⟨hbest, fun h => ?_⟩
  have hwdl : readWdl text h = h := if_neg fun hc => hdepth hc.2
  have hq : readQ text (readWdl text h) = .ok h := by
    rw [hwdl]
    exact if_neg hnode
  have hpolicy : readPolicy text h = .ok h := if_neg fun hc => hstring hc.1
  rw [onLine_eq hq hpolicy]
  exact congrArg Except.ok (if_neg hmove)

/-- The error line for a position that lc0 rejects quotes the FEN string; here it is inert. -/
def PlainFen (b : Behaviour) (q : Query) : Prop := ∀ msg, readPosition b q = .error msg → Inert (errorLine 0 msg).text

private theorem inert_outOfRange (z : Int) : Inert (errorLine 0 ("out of range value ".toList ++ showInt z)).text := by
  have hchars {c : Char} (hc : c ∈ (errorLine 0 ("out of range value ".toList ++ showInt z)).text) :
      c ∈ "error out of range value ".toList ∨ c = '-' ∨ c.isDigit = true := by
    rcases List.mem_append.mp hc with h | h
    · exact .inl (List.mem_append_left "out of range value ".toList h)
    · rcases List.mem_append.mp (List.takeWhile_subset _ h) with h | h
      · exact .inl (List.mem_append_right "error ".toList h)
      · exact .inr (mem_showInt h)
  have habsent {c : Char} {key : Str} (hkey : c ∈ key) (hc : c ∉ "error out of range value ".toList)
      (hminus : c ≠ '-') (hdigit : c.isDigit = false) :
      ¬ key <:+: (errorLine 0 ("out of range value ".toList ++ showInt z)).text := by
    intro h
    rcases hchars (h.subset hkey) with h | h | h
    · exact hc h
    · exact hminus h
    · rw [hdigit] at h; cases h
  exact inert_of_absent (habsent (c := 'b') (by decide) (by decide) (by decide) (by decide))
    (habsent (c := 'i') (by decide) (by decide) (by decide) (by decide))

section
variable {b : Behaviour} {p : Option GameState} {i : Nat} {q : Query}

theorem errorLines_inert (h : PlainFen b q) {l : Line} (hl : l ∈ errorLines b i q) :
    l.call = i ∧ l.searched = none ∧ Inert l.text := by
  rw [errorLines, List.mem_append] at hl
  rcases hl with hl | hl
  · split at hl
    · cases hl
    · rename_i msg hmsg
      obtain rfl := List.mem_singleton.mp hl
      exact ⟨rfl, rfl, h msg hmsg⟩
  · split at hl
    · cases hl
    · obtain rfl := List.mem_singleton.mp hl
      exact ⟨rfl, rfl, inert_outOfRange _⟩

theorem mem_goLines {l : Line} (h : l ∈ goLines b p i q) : l.call = i ∧ l.searched = some (searchedState b p q) := by
  rw [goLines] at h
  split at h
  · obtain ⟨text, -, rfl⟩ := List.mem_map.mp h
    exact ⟨rfl, rfl⟩
  · cases h

theorem goLines_shape (b : Behaviour) (p : Option GameState) (i : Nat) (q : Query) :
    goLines b p i q = [] ∨ ∃ init last, goLines b p i q = init ++ [last] ∧ (∀ l ∈ init, ¬ sentinel <:+: l.text) ∧
      "bestmove ".toList <+: last.text := by
  rw [goLines]
  split
  · set a := b.answers i (searchedState b p q) { nodes := some (nodesOf q) }
    refine .inr ⟨a.infos.map (⟨i, some (searchedState b p q), ·⟩), ⟨i, some (searchedState b p q), a.best⟩, ?_, ?_,
      a.best_prefix⟩
    · rw [Answer.lines, List.map_append, List.map_singleton]
    · intro l hl
      obtain ⟨text, htext, rfl⟩ := List.mem_map.mp hl
      exact a.infos_open text htext
  · exact .inl rfl

/-- The sentinel ends an exchange: nothing of it comes behind. -/
theorem sentinel_last {xs rest : List Line} {l : Line} (hplain : PlainFen b q)
    (h : xs ++ l :: rest = errorLines b i q ++ goLines b p i q) (hl : sentinel <:+: l.text) :
    rest = [] ∧ goLines b p i q ≠ [] := by
  have herrors : ∀ l ∈ errorLines b i q, ¬ sentinel <:+: l.text := fun l hl => (errorLines_inert hplain hl).2.2.1
  rcases goLines_shape b p i q with hnil | ⟨init, last, hgo, hinit, -⟩
  · rw [hnil, List.append_nil] at h
    exact absurd hl (herrors l (h ▸ by simp))
  · rw [hgo, ← List.append_assoc] at h
    have hopen : ∀ z ∈ errorLines b i q ++ init, ¬ sentinel <:+: z.text := List.forall_mem_append.mpr ⟨herrors, hinit⟩
    exact ⟨(eq_last_of_first h hl hopen).2.2, by simp [hgo]⟩

end

/-- All lines of an exchange. -/
def exchange (b : Behaviour) (queries : List Query) (i : Nat) (q : Query) : List Line :=
  errorLines b i q ++ goLines b (before b queries i) i q

/-- While a query is under way: what it has read, what is on its way and what is still to come is
its exchange, and only its commands are in front of the engine. -/
structure Flow (b : Behaviour) (queries : List Query) (s : Session) (q : Query) (got : List Line)
    (unsent : List (Nat × Str)) : Prop where
  query : queries[s.call]? = some q
  lines : got ++ (s.channel.unread ++ owed b s.engine (s.stdin ++ unsent)) = exchange b queries s.call q
  position : settled b s.engine (s.stdin ++ unsent) = before b queries (s.call + 1)
  suffix : s.stdin ++ unsent <:+ commands s.call q
  search : s.stdin ++ unsent ≠ [] → s.engine.search = none
  unended : ∀ l ∈ got, ¬ sentinel <:+: l.text

/-- Between two queries nothing is on its way. -/
structure AtRest (b : Behaviour) (queries : List Query) (s : Session) : Prop where
  stdin : s.stdin = []
  unread : s.channel.unread = []
  engine : s.engine = ⟨before b queries s.call, none⟩

def InStep (b : Behaviour) (queries : List Query) (s : Session) : Prop :=
  match s.phase with
  | .idle => AtRest b queries s
  | .positioned => ∃ q, Flow b queries s q [] [(s.call, goCommand q)]
  | .draining got => ∃ q, Flow b queries s q got []

def Outcome.Completed (o : Outcome) : Prop := ∃ lines, o = .returned lines .sentinel

/-- A query that read lines of its own exchange only, and all of them when it met its sentinel. -/
structure Own (b : Behaviour) (queries : List Query) (i : Nat) (lines : List Line) (ending : Ending) : Prop where
  exchange : ∃ q, queries[i]? = some q ∧ lines <+: exchange b queries i q ∧
    (ending = .sentinel → lines = Lc0.exchange b queries i q ∧ goLines b (before b queries i) i q ≠ [])
  unended : ending ≠ .sentinel → ∀ l ∈ lines, ¬ sentinel <:+: l.text

structure Inv (b : Behaviour) (queries : List Query) (s : Session) : Prop where
  own : ∀ i lines ending, s.outcomes[i]? = some (.returned lines ending) →
    (∀ o ∈ s.outcomes.take i, o.Completed) → Own b queries i lines ending
  inStep : (∀ o ∈ s.outcomes, o.Completed) → InStep b queries s
  unraised : ∀ i lines ending, s.outcomes[i]? = some (.returned lines ending) → .raised ∉ s.outcomes.take i
  raised : .raised ∈ s.outcomes → s.alive = false ∧ s.phase = .idle

section
variable {b : Behaviour} {queries : List Query} {s s' : Session}

/-- The rule for an event that ends no query. -/
theorem Inv.same (h : Inv b queries s) (houtcomes : s'.outcomes = s.outcomes) (hin : InStep b queries s → InStep b queries s')
    (hraised : s.alive = false ∧ s.phase = .idle → s'.alive = false ∧ s'.phase = .idle) : Inv b queries s' where
  own := by rw [houtcomes]; exact h.own
  inStep := by rw [houtcomes]; exact fun hall => hin (h.inStep hall)
  unraised := by rw [houtcomes]; exact h.unraised
  raised := by rw [houtcomes]; exact fun hmem => hraised (h.raised hmem)

private theorem concat_cases {os : List Outcome} {o x : Outcome} {i : Nat} (h : (os ++ [o])[i]? = some x) :
    (os[i]? = some x ∧ (os ++ [o]).take i = os.take i) ∨ (i = os.length ∧ x = o ∧ (os ++ [o]).take i = os) := by
  rcases Nat.lt_trichotomy i os.length with hlt | rfl | hgt
  · rw [List.getElem?_append_left hlt] at h
    exact .inl ⟨h, List.take_append_of_le_length hlt.le⟩
  · rw [List.getElem?_concat_length, Option.some_inj] at h
    exact .inr ⟨rfl, h.symm, List.take_left⟩
  · rw [List.getElem?_eq_none (by simp; omega)] at h
    cases h

/-- The rule for an event that ends a query. -/
theorem Inv.finish (h : Inv b queries s) {o : Outcome} (houtcomes : s'.outcomes = s.outcomes)
    (hown : InStep b queries s → ∀ lines ending, o = .returned lines ending → Own b queries s.call lines ending)
    (hin : InStep b queries s → o.Completed → InStep b queries (s'.finish o))
    (hraised : (s'.alive = false ∧ o = .raised) ∨ s.phase ≠ .idle ∧ o ≠ .raised) : Inv b queries (s'.finish o) where
  own := by
    intro i lines ending hi hall
    simp only [Session.finish, houtcomes] at hi hall
    rcases concat_cases hi with ⟨hi, htake⟩ | ⟨rfl, heq, htake⟩ <;> rw [htake] at hall
    · exact h.own i lines ending hi hall
    · exact hown (h.inStep hall) lines ending heq.symm
  inStep := by
    intro hall
    simp only [Session.finish, houtcomes, List.forall_mem_append, List.forall_mem_singleton] at hall
    exact hin (h.inStep hall.1) hall.2
  unraised := by
    intro i lines ending hi
    simp only [Session.finish, houtcomes] at hi ⊢
    rcases concat_cases hi with ⟨hi, htake⟩ | ⟨rfl, heq, htake⟩ <;> rw [htake]
    · exact h.unraised i lines ending hi
    · rcases hraised with ⟨-, ho⟩ | ⟨hphase, -⟩
      · rw [ho] at heq
        cases heq
      · exact fun hmem => hphase (h.raised hmem).2
  raised := by
    intro hmem
    simp only [Session.finish, houtcomes, List.mem_append, List.mem_singleton] at hmem
    refine ⟨?_, rfl⟩
    rcases hraised with ⟨hdead, -⟩ | ⟨hphase, ho⟩
    · exact hdead
    · rcases hmem with hmem | hmem
      · exact absurd (h.raised hmem).2 hphase
      · exact absurd hmem.symm ho

variable {q : Query} {got : List Line} {unsent : List (Nat × Str)} {e e' : Engine} {l : Line} {c : Channel Line}

private theorem print_lines (h : e.print = some (l, e')) :
    e.search ≠ none ∧ e.searchLines = l :: e'.searchLines ∧ e'.position = e.position := by
  obtain ⟨search, hsearch, heq⟩ := Option.map_eq_some_iff.mp h
  obtain ⟨rfl, rfl⟩ := Prod.mk.inj heq
  refine ⟨by simp [hsearch], ?_, rfl⟩
  rw [Engine.searchLines, Engine.searchLines, hsearch]
  cases hlater : search.later <;> simp [Search.lines, hlater]

private theorem suffix_commands {cs : List (Nat × Str)} {i : Nat} (h : cs <:+ commands i q) :
    cs = commands i q ∨ cs = [(i, goCommand q)] ∨ cs = [] := by
  rw [commands, List.suffix_cons_iff, List.suffix_cons_iff, List.suffix_nil] at h
  exact h

/-- A command in front of the engine will print a line. -/
private theorem owed_eq_nil {cs : List (Nat × Str)} {i : Nat} (hcs : cs <:+ commands i q)
    (hsearch : cs ≠ [] → e.search = none) (h : owed b e cs = []) : cs = [] ∧ e = ⟨e.position, none⟩ := by
  have hrest (he : e.search = none) : e = ⟨e.position, none⟩ := by cases e; cases he; rfl
  rcases suffix_commands hcs with rfl | rfl | rfl
  · rw [hrest (hsearch (by simp [commands])), owed_commands, List.append_eq_nil_iff, errorLines, goLines] at h
    by_cases hfits : ChessBoard.fitsInt (nodesOf q)
    · simp [hfits, Answer.lines] at h
    · simp [hfits] at h
  · rw [owed, execute_go (hsearch (by simp)), owed] at h
    by_cases hfits : ChessBoard.fitsInt (nodesOf q)
    · simp [hfits, Engine.searchLines, lines_ofAnswer, Answer.lines] at h
    · simp [hfits] at h
  · refine ⟨rfl, hrest ?_⟩
    cases hs : e.search with
    | none => rfl
    | some search => simp [owed, Engine.searchLines, hs, Search.lines] at h

theorem AtRest.send (h : AtRest b queries s) (hq : queries[s.call]? = some q) :
    Flow b queries { s with stdin := s.stdin ++ [(s.call, positionCommand q)], phase := .positioned } q []
      [(s.call, goCommand q)] where
  query := hq
  lines := by
    change [] ++ (s.channel.unread ++ owed b s.engine ((s.stdin ++ [_]) ++ [_])) = _
    rw [h.stdin, h.unread, h.engine]
    exact owed_commands _
  position := by
    change settled b s.engine ((s.stdin ++ [_]) ++ [_]) = _
    rw [h.stdin, h.engine]
    exact settled_commands hq
  suffix := by
    change (s.stdin ++ [_]) ++ [_] <:+ _
    rw [h.stdin]
    exact List.suffix_rfl
  search _ := by rw [h.engine]
  unended := by simp

theorem Flow.send (h : Flow b queries s q got [(s.call, goCommand q)]) {phase : Phase} :
    Flow b queries { s with stdin := s.stdin ++ [(s.call, goCommand q)], phase := phase } q got [] where
  query := h.query
  lines := by rw [List.append_nil]; exact h.lines
  position := by rw [List.append_nil]; exact h.position
  suffix := by rw [List.append_nil]; exact h.suffix
  search := by rw [List.append_nil]; exact h.search
  unended := h.unended

theorem Flow.execute (h : Flow b queries s q got unsent) {x : Nat × Str} {xs : List (Nat × Str)} (hstdin : s.stdin = x :: xs) :
    Flow b queries { s with engine := (s.engine.execute b x).1, stdin := xs,
                            channel := s.channel.write (s.engine.execute b x).2 } q got unsent where
  query := h.query
  lines := by
    have hlines := h.lines
    rw [hstdin, List.cons_append, owed] at hlines
    rw [Channel.unread_write, List.append_assoc]
    exact hlines
  position := by
    have hposition := h.position
    rw [hstdin, List.cons_append, settled] at hposition
    exact hposition
  suffix := by
    have hsuffix := h.suffix
    rw [hstdin, List.cons_append] at hsuffix
    exact (List.suffix_cons _ _).trans hsuffix
  search hne := by
    have hnone := h.search (by simp [hstdin])
    have hsuffix := h.suffix
    rw [hstdin, List.cons_append] at hsuffix
    -- with commands left behind it, the command is the position
    rcases suffix_commands hsuffix with heq | heq | heq
    · obtain ⟨rfl, -⟩ := List.cons.inj heq
      rw [execute_position hnone]
    · exact absurd (List.cons.inj heq).2 hne
    · cases heq
  unended := h.unended

theorem Flow.print (h : Flow b queries s q got unsent) (hprint : s.engine.print = some (l, e')) :
    Flow b queries { s with engine := e', channel := s.channel.write [l] } q got unsent := by
  obtain ⟨hsome, hlines, hposition⟩ := print_lines hprint
  have hnil : s.stdin ++ unsent = [] := by
    by_contra hne
    exact hsome (h.search hne)
  have hflow := h.lines
  have hplace := h.position
  rw [hnil, owed, hlines] at hflow
  rw [hnil, settled, ← hposition] at hplace
  exact {
    query := h.query
    lines := by rw [hnil, Channel.unread_write, owed, List.append_assoc]; exact hflow
    position := by rw [hnil]; exact hplace
    suffix := h.suffix
    search := fun hne => absurd hnil hne
    unended := h.unended }

theorem Flow.channel (h : Flow b queries s q got unsent) (hread : c.unread = s.channel.unread) :
    Flow b queries { s with channel := c } q got unsent where
  query := h.query
  lines := by rw [hread]; exact h.lines
  position := h.position
  suffix := h.suffix
  search := h.search
  unended := h.unended

private theorem Flow.taken (h : Flow b queries s q got unsent) (htake : s.channel.take = some (some l, c)) :
    got ++ l :: (c.unread ++ owed b s.engine (s.stdin ++ unsent)) = exchange b queries s.call q := by
  rw [← h.lines, Channel.unread_take htake]
  rfl

theorem Flow.take (h : Flow b queries s q got unsent) (htake : s.channel.take = some (some l, c))
    (hl : ¬ sentinel <:+: l.text) {phase : Phase} :
    Flow b queries { s with channel := c, phase := phase } q (got ++ [l]) unsent where
  query := h.query
  lines := by rw [List.append_assoc]; exact h.taken htake
  position := h.position
  suffix := h.suffix
  search := h.search
  unended := List.forall_mem_append.mpr ⟨h.unended, List.forall_mem_singleton.mpr hl⟩

theorem Flow.early (h : Flow b queries s q got unsent) {ending : Ending} (hending : ending ≠ .sentinel) :
    Own b queries s.call got ending where
  exchange := ⟨q, h.query, ⟨_, h.lines⟩, fun heq => absurd heq hending⟩
  unended _ := h.unended

/-- A drain that meets the sentinel has read its whole exchange, and leaves nothing behind. -/
theorem Flow.complete (h : Flow b queries s q got []) (hplain : PlainFen b q) (htake : s.channel.take = some (some l, c))
    (hl : sentinel <:+: l.text) :
    Own b queries s.call (got ++ [l]) .sentinel ∧
      AtRest b queries ({ s with channel := c }.finish (.returned (got ++ [l]) .sentinel)) := by
  obtain ⟨hrest, hgo⟩ := sentinel_last hplain (h.taken htake) hl
  obtain ⟨hunread, howed⟩ := List.append_eq_nil_iff.mp hrest
  have hall : got ++ [l] = exchange b queries s.call q := by rw [← h.taken htake, hrest]
  obtain ⟨hstdin, hengine⟩ := owed_eq_nil h.suffix h.search howed
  have hposition := h.position
  rw [hstdin, settled] at hposition
  refine ⟨⟨⟨q, h.query, by rw [hall], fun _ => ⟨hall, hgo⟩⟩, fun hne => absurd rfl hne⟩, ?_, hunread, ?_⟩
  · exact (List.append_nil _).symm.trans hstdin
  · have hcall : ({ s with channel := c }.finish (.returned (got ++ [l]) .sentinel)).call = s.call + 1 := by
      simp [Session.call, Session.finish]
    rw [hcall, ← hposition]
    exact hengine

/-- The rule for an event on the engine's side. -/
theorem InStep.engineSide (h : InStep b queries s) (hphase : s'.phase = s.phase) (houtcomes : s'.outcomes = s.outcomes)
    (hrest : AtRest b queries s → AtRest b queries s')
    (hflow : ∀ q got unsent, Flow b queries s q got unsent → Flow b queries s' q got unsent) : InStep b queries s' := by
  have hcall : s'.call = s.call := congrArg List.length houtcomes
  rw [InStep] at h ⊢
  rw [hphase, hcall]
  cases hs : s.phase with
  | idle =>
    rw [hs] at h
    exact hrest h
  | positioned =>
    rw [hs] at h
    obtain ⟨q, h⟩ := h
    exact ⟨q, hflow q _ _ h⟩
  | draining got =>
    rw [hs] at h
    obtain ⟨q, h⟩ := h
    exact ⟨q, hflow q _ _ h⟩

/-- The rule for the two ends of a drain that do not wait for the sentinel. -/
theorem Inv.finishEarly (h : Inv b queries s) (houtcomes : s'.outcomes = s.outcomes) (hphase : s.phase = .draining got)
    {ending : Ending} (hending : ending ≠ .sentinel) : Inv b queries (s'.finish (.returned got ending)) := by
  refine h.finish houtcomes (fun hin lines ending' ho => ?_) (fun _ ho => ?_) (.inr ⟨by simp [hphase], by simp⟩)
  · obtain ⟨rfl, rfl⟩ := Outcome.returned.inj ho
    rw [InStep, hphase] at hin
    obtain ⟨q, hflow⟩ := hin
    exact hflow.early hending
  · obtain ⟨lines, ho⟩ := ho
    exact absurd (Outcome.returned.inj ho).2 hending

theorem Inv.step (hplain : ∀ q ∈ queries, PlainFen b q) (h : Inv b queries s) (hstep : Session.Step b queries s s') :
    Inv b queries s' := by
  cases hstep with
  | sendPosition hphase hq halive =>
    refine h.same rfl (fun hin => ?_) (fun hdead => absurd hdead.1 (by simp [halive]))
    rw [InStep, hphase] at hin
    exact ⟨_, hin.send hq⟩
  | sendGo hphase hq halive =>
    refine h.same rfl (fun hin => ?_) (fun hdead => absurd hdead.1 (by simp [halive]))
    rw [InStep, hphase] at hin
    obtain ⟨q', hflow⟩ := hin
    obtain rfl := Option.some_inj.mp (hq.symm.trans hflow.query)
    exact ⟨_, hflow.send⟩
  | sendFails halive =>
    exact h.finish rfl (fun _ _ _ ho => by cases ho) (fun _ ho => by obtain ⟨_, ho⟩ := ho; cases ho)
      (.inl ⟨halive, rfl⟩)
  | execute halive hstdin =>
    refine h.same rfl (fun hin => ?_) (fun hdead => absurd hdead.1 (by simp [halive]))
    refine hin.engineSide rfl rfl (fun hrest => ?_) (fun q got unsent hflow => hflow.execute hstdin)
    rw [hrest.stdin] at hstdin
    cases hstdin
  | print halive hprint =>
    refine h.same rfl (fun hin => ?_) (fun hdead => absurd hdead.1 (by simp [halive]))
    refine hin.engineSide rfl rfl (fun hrest => ?_) (fun q got unsent hflow => hflow.print hprint)
    rw [hrest.engine] at hprint
    cases hprint
  | stop =>
    refine h.same rfl (fun hin => ?_) (fun hdead => ⟨rfl, hdead.2⟩)
    exact hin.engineSide rfl rfl (fun hrest => ⟨hrest.stdin, hrest.unread, hrest.engine⟩)
      (fun q got unsent hflow => ⟨hflow.query, hflow.lines, hflow.position, hflow.suffix, hflow.search, hflow.unended⟩)
  | read hread =>
    have hunread := Channel.unread_read hread
    refine h.same rfl (fun hin => ?_) id
    exact hin.engineSide rfl rfl (fun hrest => ⟨hrest.stdin, hunread.trans hrest.unread, hrest.engine⟩)
      (fun q got unsent hflow => hflow.channel hunread)
  | takeEof hphase htake =>
    have hending : Ending.eof ≠ .sentinel := by decide
    refine h.finishEarly ?_ hphase hending
    rfl
  | @takeSentinel got l c hphase htake hl =>
    have hcomplete (hin : InStep b queries s) : Own b queries s.call (got ++ [l]) .sentinel ∧
        AtRest b queries ({ s with channel := c }.finish (.returned (got ++ [l]) .sentinel)) := by
      rw [InStep, hphase] at hin
      obtain ⟨q, hflow⟩ := hin
      exact hflow.complete (hplain q (List.mem_of_getElem? hflow.query)) htake hl
    refine h.finish rfl (fun hin lines ending ho => ?_) (fun hin _ => (hcomplete hin).2)
      (.inr (by simp [hphase]))
    cases ho
    exact (hcomplete hin).1
  | takeLine hphase htake hl =>
    refine h.same rfl (fun hin => ?_) (fun hdead => absurd hdead.2 (by simp [hphase]))
    rw [InStep, hphase] at hin
    obtain ⟨q, hflow⟩ := hin
    exact ⟨q, hflow.take htake hl⟩
  | deadline hphase =>
    have hending : Ending.deadline ≠ .sentinel := by decide
    exact h.finishEarly rfl hphase hending

theorem Inv.start (b : Behaviour) (queries : List Query) : Inv b queries {} where
  own := by simp
  inStep _ := ⟨rfl, rfl, rfl⟩
  unraised := by simp
  raised := by simp

/-- The invariant holds in every state that a session reaches. -/
theorem Inv.reachable (hplain : ∀ q ∈ queries, PlainFen b q) (h : Session.Reachable b queries s) : Inv b queries s := by
  induction h with
  | start => exact Inv.start b queries
  | step _ hact ih => exact ih.step hplain (Session.step_of_act hact)

end

end ChessAnalytics.Lc0
