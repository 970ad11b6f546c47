import ChessAnalytics.Stockfish.Decoding
import ChessAnalytics.Stockfish.Session

/-! The UCI options that an evaluator sets, and how long they stay set. -/
namespace ChessAnalytics.Stockfish
open Strings Systems

/-- The current values of the two options that the client ever sets. -/
structure Options where
  threads : Int
  showWdl : Bool
  deriving DecidableEq, Repr

/-- An engine whose search output is a function of the position, the depth and the options.
A position is the list of tokens behind `position fen`; `rejects` gives the reason why a
position cannot be set up. -/
structure SearchEngine where
  rejects : List Str → Option Str
  maxThreads : Nat
  banner : List Str
  identity : List Str
  threadInfo : Int → List Str
  infos : List Str → Int → Options → List Str
  bestmove : List Str → Int → Options → Str
  banner_quiet : ∀ l ∈ banner, ¬ "uciok".toList <:+: l
  identity_quiet : ∀ l ∈ identity, ¬ "uciok".toList <:+: l
  threadInfo_quiet : ∀ n, ∀ l ∈ threadInfo n, "info string ".toList <+: l ∧
    ¬ "readyok".toList <:+: l ∧ ¬ "CRITICAL ERROR".toList <:+: l
  infos_calm : ∀ pos depth o, ∀ l ∈ infos pos depth o, "info ".toList <+: l ∧ ¬ "CRITICAL ERROR".toList <:+: l
  bestmove_calm : ∀ pos depth o, "bestmove ".toList <+: bestmove pos depth o ∧
    ¬ "CRITICAL ERROR".toList <:+: bestmove pos depth o

structure EngineState where
  options : Options
  position : List Str
  exited : Bool
  deriving DecidableEq, Repr

def startTokens : List Str := split startFen

def EngineState.start : EngineState := ⟨⟨1, false⟩, startTokens, false⟩

namespace SearchEngine
variable (E : SearchEngine)

/-- `OptionsMap::setoption` and the change handlers of the two options. -/
def setOption (st : EngineState) (name value : List Str) : List Str × EngineState :=
  if name = ["UCI_ShowWDL".toList] then
    if value = ["true".toList] then ([], { st with options.showWdl := true })
    else if value = ["false".toList] then ([], { st with options.showWdl := false })
    else ([], st)
  else if name = ["Threads".toList] then
    let n := readInt (joined value)
    if n < 1 ∨ E.maxThreads < n then ([], st)
    else (E.threadInfo n, { st with options.threads := n })
  else ([], st)

/-- The depth that `parse_limits` finds. -/
def limitDepth : Int → List Str → Int
  | depth, [] => depth
  | depth, [_] => depth
  | depth, t :: d :: rest => if t = "depth".toList then limitDepth (readInt d) rest else limitDepth depth (d :: rest)

/-- One turn of `UCIEngine::loop`. -/
def loopTurn (st : EngineState) (text : Str) : List Str × EngineState :=
  let args := (split text).tail
  if token text = "uci".toList then (E.identity ++ ["uciok".toList], st)
  else if token text = "setoption".toList then
    E.setOption st (args.tail.takeWhile (· ≠ "value".toList)) (args.tail.dropWhile (· ≠ "value".toList)).tail
  else if token text = "go".toList then
    let depth := limitDepth 0 args
    (E.infos st.position depth st.options ++ [E.bestmove st.position depth st.options], st)
  else if token text = "position".toList then
    if args.head? = some "fen".toList then
      match E.rejects args.tail with
      | none => ([], { st with position := args.tail })
      | some reason => ([infoString (criticalError text reason), []], { st with exited := true })
    else ([], st)
  else if token text = "isready".toList then (["readyok".toList], st)
  else ([], st)

def handle (st : EngineState) : Sent → List Str × EngineState
  | .spawn => (E.banner, st)
  | .command text => if st.exited then ([], st) else E.loopTurn st text

variable {E} {st : EngineState} {text : Str}

private theorem loopTurn_uci (h : token text = "uci".toList) :
    E.loopTurn st text = (E.identity ++ ["uciok".toList], st) := by
  unfold loopTurn
  rw [if_pos h]

private theorem loopTurn_setoption (h : token text = "setoption".toList) :
    E.loopTurn st text = E.setOption st ((split text).tail.tail.takeWhile (· ≠ "value".toList))
      ((split text).tail.tail.dropWhile (· ≠ "value".toList)).tail := by
  unfold loopTurn
  rw [if_neg (by rw [h]; decide), if_pos h]

private theorem loopTurn_go (h : token text = "go".toList) :
    E.loopTurn st text =
      (E.infos st.position (limitDepth 0 (split text).tail) st.options ++
        [E.bestmove st.position (limitDepth 0 (split text).tail) st.options], st) := by
  unfold loopTurn
  rw [if_neg (by rw [h]; decide), if_neg (by rw [h]; decide), if_pos h]

private theorem loopTurn_position {fen : Str} (ha : E.rejects (split fen) = none) :
    E.loopTurn st (positionFen fen) = ([], { st with position := split fen }) := by
  have hword : positionFen fen = word "position".toList (word "fen".toList fen) := rfl
  have hsplit : split (positionFen fen) = "position".toList :: "fen".toList :: split fen := by
    rw [hword, split_word _ (by decide) (by decide), split_word _ (by decide) (by decide)]
  unfold loopTurn
  rw [token_positionFen, hsplit, if_neg (by decide), if_neg (by decide), if_neg (by decide), if_pos rfl]
  simp only [List.tail_cons, List.head?_cons, if_true, ha]

private theorem loopTurn_isready (h : token text = "isready".toList) :
    E.loopTurn st text = (["readyok".toList], st) := by
  unfold loopTurn
  rw [if_neg (by rw [h]; decide), if_neg (by rw [h]; decide), if_neg (by rw [h]; decide),
    if_neg (by rw [h]; decide), if_pos h]

private theorem loopTurn_other (huci : token text ≠ "uci".toList) (hset : token text ≠ "setoption".toList)
    (hgo : token text ≠ "go".toList) (hpos : token text ≠ "position".toList)
    (hready : token text ≠ "isready".toList) : E.loopTurn st text = ([], st) := by
  unfold loopTurn
  rw [if_neg huci, if_neg hset, if_neg hgo, if_neg hpos, if_neg hready]

private theorem showInt_word (n : Int) : showInt n ≠ [] ∧ ∀ c ∈ showInt n, isSpace c = false :=
  ⟨showInt_ne_nil n, fun _ hc => isSpace_showInt hc⟩

private theorem split_setShowWdl :
    split setShowWdl = ["setoption".toList, "name".toList, "UCI_ShowWDL".toList, "value".toList, "true".toList] := by
  decide

private theorem split_setThreads (n : Int) :
    split (setThreads n) = ["setoption".toList, "name".toList, "Threads".toList, "value".toList, showInt n] := by
  have hws : ∀ w ∈ ["setoption".toList, "name".toList, "Threads".toList, "value".toList, showInt n],
      w ≠ [] ∧ ∀ c ∈ w, isSpace c = false := by
    simp only [List.forall_mem_cons]
    exact ⟨by decide, by decide, by decide, by decide, showInt_word n, fun _ h => (List.not_mem_nil h).elim⟩
  exact split_joined _ hws

private theorem split_goDepth (depth : Int) : split (goDepth depth) = ["go".toList, "depth".toList, showInt depth] := by
  have hws : ∀ w ∈ ["go".toList, "depth".toList, showInt depth], w ≠ [] ∧ ∀ c ∈ w, isSpace c = false := by
    simp only [List.forall_mem_cons]
    exact ⟨by decide, by decide, showInt_word depth, fun _ h => (List.not_mem_nil h).elim⟩
  exact split_joined _ hws

private theorem handle_live (hl : st.exited = false) : E.handle st (.command text) = E.loopTurn st text :=
  if_neg (by rw [hl]; decide)

theorem handle_setShowWdl (hl : st.exited = false) :
    E.handle st (.command setShowWdl) = ([], { st with options.showWdl := true }) := by
  rw [handle_live hl, loopTurn_setoption token_setShowWdl, split_setShowWdl]
  rfl

theorem handle_setThreads (n : Int) (hl : st.exited = false) :
    E.handle st (.command (setThreads n)) = if n < 1 ∨ E.maxThreads < n then ([], st)
      else (E.threadInfo n, { st with options.threads := n }) := by
  rw [handle_live hl, loopTurn_setoption (token_setThreads n), split_setThreads]
  change E.setOption st ["Threads".toList] [showInt n] = _
  rw [setOption, if_neg (by decide), if_pos rfl]
  simp [joined]

theorem handle_positionFen {fen : Str} (hl : st.exited = false) (ha : E.rejects (split fen) = none) :
    E.handle st (.command (positionFen fen)) = ([], { st with position := split fen }) := by
  rw [handle_live hl, loopTurn_position ha]

theorem handle_goDepth (depth : Int) (hl : st.exited = false) :
    E.handle st (.command (goDepth depth)) =
      (E.infos st.position depth st.options ++ [E.bestmove st.position depth st.options], st) := by
  rw [handle_live hl, loopTurn_go (token_goDepth depth), split_goDepth]
  simp [limitDepth]

private theorem setOption_quiet (name value : List Str) (hl : st.exited = false) :
    (E.setOption st name value).2.exited = false ∧ ∀ l ∈ (E.setOption st name value).1,
      "info string ".toList <+: l ∧ ¬ "readyok".toList <:+: l ∧ ¬ "CRITICAL ERROR".toList <:+: l := by
  have hsilent (t : EngineState) (ht : t.exited = false) : t.exited = false ∧ ∀ l ∈ ([] : List Str),
      "info string ".toList <+: l ∧ ¬ "readyok".toList <:+: l ∧ ¬ "CRITICAL ERROR".toList <:+: l :=
    ⟨ht, fun _ h => (List.not_mem_nil h).elim⟩
  unfold setOption
  split
  · split
    · exact hsilent _ hl
    · split <;> exact hsilent _ hl
  · split
    · dsimp only
      split
      · exact hsilent _ hl
      · exact ⟨hl, E.threadInfo_quiet _⟩
    · exact hsilent _ hl

private theorem handle_speaks (hl : st.exited = false) (c : Sent)
    (hc : Accepted (fun fen => E.rejects (split fen) = none) c) :
    (E.handle st c).2.exited = false ∧ Answers c (E.handle st c).1 := by
  cases c with
  | spawn => exact ⟨hl, E.banner_quiet⟩
  | command text =>
  rw [handle_live hl]
  have hother {a b : Str} {P : Prop} (ht : token text = a) (hne : a ≠ b) : token text = b → P :=
    fun h => absurd (ht.symm.trans h) hne
  by_cases huci : token text = "uci".toList
  · rw [loopTurn_uci huci]
    exact ⟨hl, fun _ => ⟨E.identity, rfl, E.identity_quiet⟩, hother huci (by decide), hother huci (by decide),
      hother huci (by decide), hother huci (by decide)⟩
  by_cases hset : token text = "setoption".toList
  · rw [loopTurn_setoption hset]
    obtain ⟨hlive, hquiet⟩ := setOption_quiet (E := E) ((split text).tail.tail.takeWhile (· ≠ "value".toList))
      ((split text).tail.tail.dropWhile (· ≠ "value".toList)).tail hl
    exact ⟨hlive, hother hset (by decide), hother hset (by decide), fun _ => hquiet,
      hother hset (by decide), hother hset (by decide)⟩
  by_cases hgo : token text = "go".toList
  · rw [loopTurn_go hgo]
    exact ⟨hl, hother hgo (by decide), hother hgo (by decide), hother hgo (by decide), hother hgo (by decide),
      fun _ => ⟨_, _, rfl, E.infos_calm _ _ _, E.bestmove_calm _ _ _⟩⟩
  by_cases hpos : token text = "position".toList
  · obtain ⟨fen, rfl, ha⟩ := hc hpos
    rw [loopTurn_position ha]
    exact ⟨hl, hother hpos (by decide), hother hpos (by decide), hother hpos (by decide), fun _ => rfl,
      hother hpos (by decide)⟩
  by_cases hready : token text = "isready".toList
  · rw [loopTurn_isready hready]
    exact ⟨hl, hother hready (by decide), fun _ => rfl, hother hready (by decide), hother hready (by decide),
      hother hready (by decide)⟩
  · rw [loopTurn_other huci hset hgo hpos hready]
    exact ⟨hl, fun h => absurd h huci, fun h => absurd h hready, fun h => absurd h hset, fun _ => rfl,
      fun h => absurd h hgo⟩

/-- The engine as a process of the session model. -/
def uci (E : SearchEngine) : UciEngine (fun fen => E.rejects (split fen) = none) EngineState where
  toServer := Server.ofFun .start E.handle
  live st := st.exited = false
  live_start := rfl
  replies s c _ := ⟨_, _, rfl⟩
  speaks := by
    intro st c ls t hl hc ha
    have ha : E.handle st c = (ls, t) := ha
    have h := handle_speaks (E := E) hl c hc
    rwa [ha] at h

def transcript (E : SearchEngine) (position : List Str) (depth : Int) (o : Options) : List Str :=
  E.infos position depth o ++ [E.bestmove position depth o]

private theorem answers_call (c : Call) (hl : st.exited = false) (ha : E.rejects (split c.fen) = none) :
    answerAll E.handle st (evaluateBlock c).sends =
      (E.transcript (split c.fen) c.depth ⟨st.options.threads, st.options.showWdl || c.showWdl⟩,
        ⟨⟨st.options.threads, st.options.showWdl || c.showWdl⟩, split c.fen, false⟩) := by
  obtain ⟨⟨threads, wdl⟩, position, exited⟩ := st
  obtain ⟨fen, depth, showWdl⟩ := c
  simp only at hl
  subst hl
  have hset (o : Options) (p : List Str) :
      E.handle ⟨o, p, false⟩ (.command setShowWdl) = ([], ⟨⟨o.threads, true⟩, p, false⟩) := handle_setShowWdl rfl
  have hpos (o : Options) (p : List Str) :
      E.handle ⟨o, p, false⟩ (.command (positionFen fen)) = ([], ⟨o, split fen, false⟩) := handle_positionFen rfl ha
  have hgo (o : Options) (p : List Str) :
      E.handle ⟨o, p, false⟩ (.command (goDepth depth)) = (E.transcript p depth o, ⟨o, p, false⟩) :=
    handle_goDepth depth rfl
  cases showWdl with
  | false =>
    simp only [evaluateBlock, Block.reading, Bool.false_eq_true, if_false, List.nil_append, List.cons_append, answerAll,
      hpos, hgo, List.append_nil, Bool.or_false]
  | true =>
    simp only [evaluateBlock, Block.reading, if_true, List.nil_append, List.cons_append, answerAll, hset, hpos, hgo,
      List.append_nil, Bool.or_true]

private theorem answers_calls (st : EngineState) (calls : List Call)
    (ha : ∀ c ∈ calls, E.rejects (split c.fen) = none) (hl : st.exited = false) :
    (answerAll E.handle st ((calls.map evaluateBlock).flatMap Block.sends)).2.exited = false ∧
      (answerAll E.handle st ((calls.map evaluateBlock).flatMap Block.sends)).2.options =
        ⟨st.options.threads, st.options.showWdl || calls.any Call.showWdl⟩ := by
  induction calls generalizing st with
  | nil => simp [answerAll, hl]
  | cons c calls ih =>
    simp only [List.forall_mem_cons] at ha
    rw [List.map_cons, List.flatMap_cons, answerAll_append, answers_call c hl ha.1]
    obtain ⟨hlive, hoptions⟩ := ih ⟨⟨st.options.threads, st.options.showWdl || c.showWdl⟩, split c.fen, false⟩ ha.2 rfl
    exact ⟨hlive, by rw [hoptions, List.any_cons, Bool.or_assoc]⟩

def threadsAfter (E : SearchEngine) (threads : Int) : Int :=
  if threads < 1 ∨ E.maxThreads < threads then 1 else threads

private theorem answers_init (threads : Int) :
    (answerAll E.handle .start ((initBlocks threads).flatMap Block.sends)).2 =
      ⟨⟨if threads = 1 then 1 else E.threadsAfter threads, false⟩, startTokens, false⟩ := by
  have huci (t : EngineState) (hl : t.exited = false) :
      E.handle t (.command "uci".toList) = (E.identity ++ ["uciok".toList], t) := by
    rw [handle_live hl, loopTurn_uci (by decide)]
  have hready (t : EngineState) (hl : t.exited = false) :
      E.handle t (.command "isready".toList) = (["readyok".toList], t) := by
    rw [handle_live hl, loopTurn_isready (by decide)]
  by_cases h : threads = 1
  · simp only [initBlocks, Block.reading, h, ne_eq, not_true, if_false, if_true, List.flatMap_cons, List.flatMap_nil,
      List.nil_append, List.append_nil, List.cons_append, answerAll]
    rw [show E.handle .start .spawn = (E.banner, .start) from rfl, huci _ rfl, hready _ rfl]
    rfl
  · simp only [initBlocks, Block.reading, h, ne_eq, not_false_iff, if_false, if_true, List.flatMap_cons,
      List.flatMap_nil, List.nil_append, List.append_nil, List.cons_append, answerAll]
    rw [show E.handle .start .spawn = (E.banner, .start) from rfl, huci _ rfl, handle_setThreads threads rfl]
    by_cases hbad : threads < 1 ∨ E.maxThreads < threads
    · rw [if_pos hbad, hready _ rfl, threadsAfter, if_pos hbad]
      rfl
    · rw [if_neg hbad, hready _ rfl, threadsAfter, if_neg hbad]
      rfl

/-- What the `i`-th call is answered: the search with the option set if this call or an
earlier one asked for it. -/
theorem answersAt_call {threads : Int} {calls : List Call} {i : Nat} {c : Call} (hi : calls[i]? = some c)
    (ha : ∀ c ∈ calls, E.rejects (split c.fen) = none) :
    answersAt .start E.handle (sessionBlocks threads calls) (i + 2) =
      E.transcript (split c.fen) c.depth
        ⟨if threads = 1 then 1 else E.threadsAfter threads, (calls.take i).any Call.showWdl || c.showWdl⟩ := by
  have hbefore : ((sessionBlocks threads calls).take (i + 2)).flatMap Block.sends =
      (initBlocks threads).flatMap Block.sends ++ ((calls.take i).map evaluateBlock).flatMap Block.sends := by
    rw [sessionBlocks, List.take_append, show (initBlocks threads).length = 2 from rfl,
      List.take_of_length_le (show (initBlocks threads).length ≤ i + 2 by simp [initBlocks]), List.flatMap_append,
      Nat.add_sub_cancel, List.map_take]
  have hsends : sendsAt (sessionBlocks threads calls) (i + 2) = (evaluateBlock c).sends := by
    rw [sendsAt, session_block hi]
    rfl
  obtain ⟨hlive, hoptions⟩ := answers_calls (E := E)
    ⟨⟨if threads = 1 then 1 else E.threadsAfter threads, false⟩, startTokens, false⟩ (calls.take i)
    (fun d hd => ha d (List.mem_of_mem_take hd)) rfl
  rw [answersAt, hbefore, answerAll_append, hsends, answers_init]
  simp only
  rw [answers_call c hlive (ha c (List.mem_of_getElem? hi)), hoptions]
  simp

end SearchEngine

/-- Every call of a session gets what the same call gets from a fresh evaluator with the
same thread count, however the processes are scheduled. -/
def IndependentCalls (E : SearchEngine) (threads : Int) (calls : List Call) : Prop :=
  ∀ i c, calls[i]? = some c → ∀ s s₁ ls ls₁,
    Session.Reachable E.uci.toServer (sessionBlocks threads calls) s → readBy s i = some ls →
    Session.Reachable E.uci.toServer (sessionBlocks threads [c]) s₁ → readBy s₁ 0 = some ls₁ →
    evaluate c.fen c.depth (ls.map Prod.snd) = evaluate c.fen c.depth (ls₁.map Prod.snd)

section
variable {E : SearchEngine} {threads : Int} {calls : List Call} {i : Nat} {c : Call} {s : Session Sent Str EngineState}
  {ls : List (Nat × Str)}

private theorem read_transcript (ha : ∀ c ∈ calls, E.rejects (split c.fen) = none) (hi : calls[i]? = some c)
    (hs : Session.Reachable E.uci.toServer (sessionBlocks threads calls) s) (hls : readBy s i = some ls) :
    ls.map Prod.snd = E.transcript (split c.fen) c.depth
      ⟨if threads = 1 then 1 else E.threadsAfter threads, (calls.take i).any Call.showWdl || c.showWdl⟩ := by
  have hframed := session_blocks_framed (e := E.uci) threads ha
  rw [← SearchEngine.answersAt_call hi ha]
  have hs : Session.Reachable (Server.ofFun .start E.handle) (sessionBlocks threads calls) s := hs
  exact hs.sequential (I := E.uci.live) E.uci.live_start hframed hls

private theorem independent_of_unset (ha : ∀ c ∈ calls, E.rejects (split c.fen) = none)
    (h : ∀ i c, calls[i]? = some c → c.showWdl = true ∨ ∀ d ∈ calls.take i, d.showWdl = false) :
    IndependentCalls E threads calls := by
  intro i c hi s s₁ ls ls₁ hs hls hs₁ hls₁
  have hc : ∀ d ∈ [c], E.rejects (split d.fen) = none := by
    simpa using ha c (List.mem_of_getElem? hi)
  have hsame : ((calls.take i).any Call.showWdl || c.showWdl) = c.showWdl := by
    rcases h i c hi with hset | hunset
    · rw [hset, Bool.or_true]
    · rw [List.any_eq_false.mpr (fun d hd => by simp [hunset d hd]), Bool.false_or]
  rw [read_transcript ha hi hs hls, read_transcript hc rfl hs₁ hls₁, hsame]
  simp

end

/-- A search of depth 1 that reports the wdl triple when it is asked to. -/
def wdlRecord (o : Options) : FullRecord :=
  { depth := 1, selDepth := 1, multiPV := 1, score := .internalUnits 20, bound := none
    wdl := if o.showWdl then some (60, 900, 40) else none
    nodes := 20, nps := 20000, hashfull := 0, tbHits := 0, timeMs := 1, pv := [⟨makeSquare 4 1, makeSquare 4 3, .normal, .knight⟩] }

/-- An engine that accepts every position and searches nothing. -/
def wdlEngine : SearchEngine where
  rejects _ := none
  maxThreads := 1024
  banner := []
  identity := []
  threadInfo _ := []
  infos _ _ o := [(Record.full (wdlRecord o)).print]
  bestmove _ _ _ := onBestmove (move ⟨makeSquare 4 1, makeSquare 4 3, .normal, .knight⟩ false) ((none : Option Move).elim [] (move · false))
  banner_quiet := fun _ h => (List.not_mem_nil h).elim
  identity_quiet := fun _ h => (List.not_mem_nil h).elim
  threadInfo_quiet := fun _ _ h => (List.not_mem_nil h).elim
  infos_calm := fun _ _ _ l hl => by
    rw [List.mem_singleton.mp hl]
    exact ⟨print_info _, print_calm _⟩
  bestmove_calm := fun _ _ _ => ⟨bestmove_starts _ _, bestmove_calm _ _⟩

private theorem evaluate_wdlEngine (fen : Str) (depth : Int) (position : List Str) (o : Options) :
    ∃ r : Evaluation, evaluate fen depth (wdlEngine.transcript position depth o) = .ok r ∧
      r.wdl = if o.showWdl then some (60, 900, 40) else none := by
  have h := evaluate_selected fen depth [Record.full (wdlRecord o)] ⟨makeSquare 4 1, makeSquare 4 3, .normal, .knight⟩ none
  rw [selected_singleton depth (p := _) rfl] at h
  exact ⟨_, h, rfl⟩

private theorem wdl_leaks (threads : Int) (calls : List Call) {i : Nat} {c d : Call} (hi : calls[i]? = some c)
    (hc : c.showWdl = false) (hd : d ∈ calls.take i) (hset : d.showWdl = true) :
    ¬ IndependentCalls wdlEngine threads calls := by
  intro h
  have hi' : i < calls.length := (List.getElem?_eq_some_iff.mp hi).1
  obtain ⟨s, hs, hlen⟩ := session_completes (e := wdlEngine.uci) threads calls (fun _ _ => rfl) .refl
  obtain ⟨s₁, hs₁, hlen₁⟩ := session_completes (e := wdlEngine.uci) threads [c] (fun _ _ => rfl) .refl
  have hlt : i + 2 < s.finished.length := by omega
  have hlt₁ : 2 < s₁.finished.length := hlen₁
  have hls : readBy s i = some s.finished[i + 2] := List.getElem?_eq_getElem hlt
  have hls₁ : readBy s₁ 0 = some s₁.finished[2] := List.getElem?_eq_getElem hlt₁
  have heq := h i c hi s s₁ _ _ hs hls hs₁ hls₁
  rw [read_transcript (fun _ _ => rfl) hi hs hls, read_transcript (fun _ _ => rfl) rfl hs₁ hls₁] at heq
  obtain ⟨r, hr, hwdl⟩ := evaluate_wdlEngine c.fen c.depth (split c.fen)
    ⟨if threads = 1 then 1 else wdlEngine.threadsAfter threads, (calls.take i).any Call.showWdl || c.showWdl⟩
  obtain ⟨r₁, hr₁, hwdl₁⟩ := evaluate_wdlEngine c.fen c.depth (split c.fen)
    ⟨if threads = 1 then 1 else wdlEngine.threadsAfter threads, ([c].take 0).any Call.showWdl || c.showWdl⟩
  rw [hr, hr₁] at heq
  have hany : (calls.take i).any Call.showWdl = true := List.any_eq_true.mpr ⟨d, hd, hset⟩
  rw [Except.ok.inj heq, hwdl₁, hany, hc] at hwdl
  simp at hwdl

/-- For every engine and schedule, calls are independent of the calls before them exactly
when no call without `show_wdl` comes behind one with it. -/
theorem independent_iff (threads : Int) (calls : List Call) :
    (∀ E : SearchEngine, (∀ c ∈ calls, E.rejects (split c.fen) = none) → IndependentCalls E threads calls) ↔
      ∀ i c, calls[i]? = some c → c.showWdl = true ∨ ∀ d ∈ calls.take i, d.showWdl = false := by
  constructor
  · intro h i c hi
    by_contra hcon
    simp only [not_or, not_forall, Bool.not_eq_true, Bool.not_eq_false] at hcon
    obtain ⟨hc, d, hd, hset⟩ := hcon
    exact wdl_leaks threads calls hi hc hd hset (h wdlEngine (fun _ _ => rfl))
  · exact fun h E ha => independent_of_unset ha h

theorem not_independent :
    let fen := "rnbqkbnr/pppppppp/8/8/8/8/PPPPPPPP/RNBQKBNR w KQkq - 0 1".toList
    ¬ ∀ E : SearchEngine, (∀ c ∈ [Call.mk fen 8 true, Call.mk fen 8 false], E.rejects (split c.fen) = none) →
      IndependentCalls E 1 [Call.mk fen 8 true, Call.mk fen 8 false] := by
  intro fen h
  exact wdl_leaks 1 [Call.mk fen 8 true, Call.mk fen 8 false] (i := 1) rfl rfl (List.mem_singleton.mpr rfl)
    rfl (h wdlEngine (fun _ _ => rfl))

end ChessAnalytics.Stockfish
