import ChessAnalytics.Stockfish.Evaluator
import ChessAnalytics.Systems.Session

/-! A `StockfishEvaluator` and its engine process, joined by the two pipes of `Popen`. -/
namespace ChessAnalytics.Stockfish
open Strings Systems

def startFen : Str := "rnbqkbnr/pppppppp/8/8/8/8/PPPPPPPP/RNBQKBNR w KQkq - 0 1".toList

/-- What the client does to the engine: start the process, or write one line. -/
inductive Sent where
  | spawn
  | command (text : Str)
  deriving DecidableEq, Repr

/-- The arguments of one `evaluate`. -/
structure Call where
  fen : Str
  depth : Int
  showWdl : Bool
  deriving DecidableEq, Repr

def setThreads (threads : Int) : Str := "setoption name Threads value ".toList ++ showInt threads
def setShowWdl : Str := "setoption name UCI_ShowWDL value true".toList
def positionFen (fen : Str) : Str := "position fen ".toList ++ fen
def goDepth (depth : Int) : Str := "go depth ".toList ++ showInt depth

def waitFor (token : Str) : Reader Str Unit Unit :=
  ⟨(), fun _ line => if token <:+: line then .inr () else .inl ()⟩

/-- `__init__`, up to each of its two waits. -/
def initBlocks (threads : Int) : List (Block Sent Str) :=
  [Block.reading (waitFor "uciok".toList) ([.spawn] ++ [.command "uci".toList]),
    Block.reading (waitFor "readyok".toList)
      ((if threads ≠ 1 then [.command (setThreads threads)] else []) ++ [.command "isready".toList])]

/-- `evaluate`. -/
def evaluateBlock (c : Call) : Block Sent Str :=
  Block.reading (evaluateReader c.fen c.depth)
    ((if c.showWdl then [.command setShowWdl] else []) ++ [.command (positionFen c.fen)] ++ [.command (goDepth c.depth)])

/-- The constructor, then one call after the other. -/
def sessionBlocks (threads : Int) (calls : List Call) : List (Block Sent Str) :=
  initBlocks threads ++ calls.map evaluateBlock

/-- The first token of a line, as `is >> token` reads it. -/
def token (text : Str) : Str := (split text).headD []

/-- A position command whose FEN the engine accepts, or any other command. -/
def Accepted (accepted : Str → Prop) : Sent → Prop
  | .spawn => True
  | .command text => token text = "position".toList → ∃ fen, text = positionFen fen ∧ accepted fen

/-- What the engine prints for an accepted command: the banner at the start, `uciok` and
`readyok` behind everything else, nothing for a position, and for a search one last line. -/
def Answers : Sent → List Str → Prop
  | .spawn, ls => ∀ l ∈ ls, ¬ "uciok".toList <:+: l
  | .command text, ls =>
    (token text = "uci".toList → ∃ init, ls = init ++ ["uciok".toList] ∧ ∀ l ∈ init, ¬ "uciok".toList <:+: l) ∧
    (token text = "isready".toList → ls = ["readyok".toList]) ∧
    (token text = "setoption".toList → ∀ l ∈ ls, "info string ".toList <+: l ∧
      ¬ "readyok".toList <:+: l ∧ ¬ "CRITICAL ERROR".toList <:+: l) ∧
    (token text = "position".toList → ls = []) ∧
    (token text = "go".toList → ∃ infos best, ls = infos ++ [best] ∧
      (∀ l ∈ infos, "info ".toList <+: l ∧ ¬ "CRITICAL ERROR".toList <:+: l) ∧
      "bestmove ".toList <+: best ∧ ¬ "CRITICAL ERROR".toList <:+: best)

/-- An engine process with states `S` that lives on and keeps to the protocol as long as its
commands are accepted. -/
structure UciEngine (accepted : Str → Prop) (S : Type) extends Server Sent Str S where
  live : S → Prop
  live_start : live start
  speaks : ∀ s c ls t, live s → Accepted accepted c → answers s c ls t → live t ∧ Answers c ls
  replies : ∀ s c, live s → ∃ ls t, answers s c ls t

private theorem token_word (w rest : Str) (hw : ∀ c ∈ w, isSpace c = false) (hne : w ≠ []) :
    token (word w rest) = w := by rw [token, split_word rest hw hne, List.headD_cons]

@[simp] theorem token_setThreads (threads : Int) : token (setThreads threads) = "setoption".toList :=
  token_word "setoption".toList ("name Threads value ".toList ++ showInt threads) (by decide) (by decide)

@[simp] theorem token_setShowWdl : token setShowWdl = "setoption".toList :=
  token_word "setoption".toList "name UCI_ShowWDL value true".toList (by decide) (by decide)

@[simp] theorem token_positionFen (fen : Str) : token (positionFen fen) = "position".toList :=
  token_word "position".toList ("fen ".toList ++ fen) (by decide) (by decide)

@[simp] theorem token_goDepth (depth : Int) : token (goDepth depth) = "go".toList :=
  token_word "go".toList ("depth ".toList ++ showInt depth) (by decide) (by decide)

variable {accepted : Str → Prop} {S : Type} {e : UciEngine accepted S} {s t : S} {ls : List Str}

private theorem waitFor_passes {key l : Str} (h : ¬ key <:+: l) : (waitFor key).Passes l :=
  fun _ => ⟨(), if_neg h⟩

private theorem waitFor_ends (key : Str) : (waitFor key).Ends key := fun _ => ⟨(), if_pos List.infix_rfl⟩

private theorem info_passes {fen l : Str} {depth : Int} (hc : ¬ "CRITICAL ERROR".toList <:+: l)
    (hi : "info ".toList <+: l) : (evaluateReader fen depth).Passes l := fun _ => onLine_info hc hi

private theorem info_of_infoString {l : Str} (h : "info string ".toList <+: l) : "info ".toList <+: l :=
  List.IsPrefix.trans ⟨"string ".toList, rfl⟩ h

private theorem accepted_of_token {text key : Str} (hk : token text = key) (hne : key ≠ "position".toList) :
    Accepted accepted (.command text) := fun h => absurd (hk.symm.trans h) hne

private theorem keeps_setoption {P : Str → Prop} {text : Str} (hk : token text = "setoption".toList)
    (hP : ∀ l, "info string ".toList <+: l → ¬ "readyok".toList <:+: l → ¬ "CRITICAL ERROR".toList <:+: l → P l) :
    e.Keeps e.live P (.command text) := by
  intro s ls t hs ha
  obtain ⟨ht, hls⟩ := e.speaks s _ ls t hs (accepted_of_token hk (by decide)) ha
  refine ⟨ht, fun l hl => ?_⟩
  obtain ⟨hinfo, hready, hcalm⟩ := hls.2.2.1 hk l hl
  exact hP l hinfo hready hcalm

private theorem framed_uci : (Block.reading (waitFor "uciok".toList)
    ([Sent.spawn] ++ [Sent.command "uci".toList])).Framed e.toServer e.live := by
  apply Block.framed_reading
  · intro c hc s ls t hs ha
    rw [List.mem_singleton.mp hc] at ha
    obtain ⟨ht, hls⟩ := e.speaks s .spawn ls t hs trivial ha
    exact ⟨ht, fun l hl => waitFor_passes (hls l hl)⟩
  · intro s ls t hs ha
    have htoken : token "uci".toList = "uci".toList := by decide
    obtain ⟨ht, hls⟩ := e.speaks s _ ls t hs (accepted_of_token htoken (by decide)) ha
    obtain ⟨init, hls, hinit⟩ := hls.1 htoken
    exact ⟨ht, init, _, hls, fun x hx => waitFor_passes (hinit x hx), waitFor_ends _⟩

private theorem framed_isready (threads : Int) : (Block.reading (waitFor "readyok".toList)
    ((if threads ≠ 1 then [Sent.command (setThreads threads)] else []) ++ [Sent.command "isready".toList])).Framed
      e.toServer e.live := by
  apply Block.framed_reading
  · intro c hc
    split at hc
    · rw [List.mem_singleton.mp hc]
      exact keeps_setoption (token_setThreads threads) (fun _ _ hready _ => waitFor_passes hready)
    · cases hc
  · intro s ls t hs ha
    have htoken : token "isready".toList = "isready".toList := by decide
    obtain ⟨ht, hls⟩ := e.speaks s _ ls t hs (accepted_of_token htoken (by decide)) ha
    exact ⟨ht, [], _, hls.2.1 htoken, by simp, waitFor_ends _⟩

private theorem go_answer {depth : Int} (hs : e.live s) (ha : e.answers s (.command (goDepth depth)) ls t) :
    e.live t ∧ ∃ infos best, ls = infos ++ [best] ∧
      (∀ l ∈ infos, "info ".toList <+: l ∧ ¬ "CRITICAL ERROR".toList <:+: l) ∧
      "bestmove ".toList <+: best ∧ ¬ "CRITICAL ERROR".toList <:+: best := by
  obtain ⟨ht, hls⟩ := e.speaks s _ ls t hs (accepted_of_token (token_goDepth depth) (by decide)) ha
  exact ⟨ht, hls.2.2.2.2 (token_goDepth depth)⟩

private theorem before_go (c : Call) (hacc : accepted c.fen) :
    ∀ cmd ∈ (if c.showWdl then [Sent.command setShowWdl] else []) ++ [Sent.command (positionFen c.fen)],
      e.Keeps e.live (fun l => "info ".toList <+: l ∧ ¬ "CRITICAL ERROR".toList <:+: l) cmd := by
  intro cmd hcmd
  rcases List.mem_append.mp hcmd with hcmd | hcmd
  · split at hcmd
    · rw [List.mem_singleton.mp hcmd]
      exact keeps_setoption token_setShowWdl (fun _ hinfo _ hcalm => ⟨info_of_infoString hinfo, hcalm⟩)
    · cases hcmd
  · intro s ls t hs ha
    rw [List.mem_singleton.mp hcmd] at ha
    have haccepted : Accepted accepted (.command (positionFen c.fen)) :=
      fun _ => ⟨c.fen, rfl, hacc⟩
    obtain ⟨ht, hls⟩ := e.speaks s _ ls t hs haccepted ha
    have hnone : ls = [] := hls.2.2.2.1 (token_positionFen c.fen)
    exact ⟨ht, fun l hl => by rw [hnone] at hl; cases hl⟩

private theorem framed_evaluate (c : Call) (hacc : accepted c.fen) : (evaluateBlock c).Framed e.toServer e.live := by
  apply Block.framed_reading
  · intro cmd hcmd s ls t hs ha
    obtain ⟨ht, hls⟩ := before_go c hacc cmd hcmd s ls t hs ha
    exact ⟨ht, fun l hl => info_passes (hls l hl).2 (hls l hl).1⟩
  · intro s ls t hs ha
    obtain ⟨ht, infos, best, hls, hinfos, hbest, hcalm⟩ := go_answer hs ha
    exact ⟨ht, infos, best, hls, fun x hx => info_passes (hinfos x hx).2 (hinfos x hx).1,
      fun _ => ⟨_, onLine_bestmove hcalm hbest⟩⟩

private theorem evaluate_lines {es : List (Answered Sent Str)} (c : Call) (hacc : accepted c.fen)
    (hs : e.live s) (h : e.Exec s es t) (hes : es.map Answered.command = (evaluateBlock c).sends) :
    ∃ infos best, es.flatMap Answered.lines = infos ++ [best] ∧
      (∀ l ∈ infos, "info ".toList <+: l ∧ ¬ "CRITICAL ERROR".toList <:+: l) ∧
      "bestmove ".toList <+: best ∧ ¬ "CRITICAL ERROR".toList <:+: best := by
  obtain ⟨fs, f, u, rfl, hfs, hu, hv⟩ := h.last hes
  obtain ⟨hlive, hinit⟩ := hu.forall_lines hs (fun cmd hcmd => before_go c hacc cmd (hfs ▸ hcmd))
  obtain ⟨-, infos, best, hls, hinfos, hbest⟩ := go_answer hlive hv
  exact ⟨fs.flatMap Answered.lines ++ infos, best, by simp [hls], List.forall_mem_append.mpr ⟨hinit, hinfos⟩, hbest⟩

theorem session_blocks_framed (threads : Int) {calls : List Call} (hacc : ∀ c ∈ calls, accepted c.fen) :
    ∀ b ∈ sessionBlocks threads calls, b.Framed e.toServer e.live := by
  simp only [sessionBlocks, initBlocks, List.forall_mem_append, List.forall_mem_cons]
  refine ⟨⟨framed_uci, framed_isready threads, by simp⟩, ?_⟩
  intro b hb
  obtain ⟨c, hc, rfl⟩ := List.mem_map.mp hb
  exact framed_evaluate c (hacc c hc)

/-- The lines that the `i`-th `evaluate` has read, once it is over. -/
def readBy (s : Session Sent Str S) (i : Nat) : Option (List (Nat × Str)) := s.finished[i + 2]?

theorem session_block {threads : Int} {calls : List Call} {i : Nat} {c : Call} (hi : calls[i]? = some c) :
    (sessionBlocks threads calls)[i + 2]? = some (evaluateBlock c) := by
  rw [sessionBlocks, List.getElem?_append_right (by simp [initBlocks])]
  simp [initBlocks, hi]

/-- Every run can be continued until all calls are over. -/
theorem session_completes (threads : Int) (calls : List Call) (hacc : ∀ c ∈ calls, accepted c.fen)
    {s : Session Sent Str S} (hs : Session.Reachable e.toServer (sessionBlocks threads calls) s) :
    ∃ t, Relation.ReflTransGen (Session.Step e.toServer (sessionBlocks threads calls)) s t ∧
      calls.length + 2 ≤ t.finished.length := by
  have hne : ∀ b ∈ sessionBlocks threads calls, b.sends ≠ [] := by
    simp [sessionBlocks, initBlocks, evaluateBlock, Block.reading]
  obtain ⟨t, ht, hlen⟩ := hs.completes e.live_start (session_blocks_framed threads hacc) hne e.replies
  refine ⟨t, ht, ?_⟩
  simp only [sessionBlocks, initBlocks, List.length_append, List.length_cons, List.length_nil, List.length_map,
    Session.call] at hlen
  omega

/-- In every interleaving of client and engine, each `evaluate` reads exactly what the
engine prints for its own commands, up to and including its one bestmove line. It leaves
nothing unread, and no run can go on without finishing all calls. -/
theorem session_framed (threads : Int) (calls : List Call) (hacc : ∀ c ∈ calls, accepted c.fen)
    (s : Session Sent Str S) (hs : Session.Reachable e.toServer (sessionBlocks threads calls) s) :
    (∀ i c ls, calls[i]? = some c → readBy s i = some ls →
      s.commandsOf (i + 2) = (evaluateBlock c).sends ∧ ls = (s.outputOf (i + 2)).map (i + 2, ·) ∧
      (∃ infos best, ls.map Prod.snd = infos ++ [best] ∧ (∀ l ∈ infos, ¬ "bestmove ".toList <+: l) ∧
        "bestmove ".toList <+: best) ∧
      ∃ state : ReadState,
        (evaluateReader c.fen c.depth).run (ls.map Prod.snd) = some (state.chosen c.fen c.depth, [])) ∧
    (∀ s', Session.Step e.toServer (sessionBlocks threads calls) s s' → s'.finished ≠ s.finished →
      s'.output = [] ∧ s'.printing = [] ∧ s'.commands = [] ∧ s'.got = []) ∧
    (∃ t, Relation.ReflTransGen (Session.Step e.toServer (sessionBlocks threads calls)) s t ∧
      calls.length + 2 ≤ t.finished.length) ∧
    WellFounded (fun t s => Session.Step e.toServer (sessionBlocks threads calls) s t) := by
  have hf := session_blocks_framed (e := e) threads hacc
  refine ⟨fun i c ls hc hls => ?_, fun s' => hs.drained e.live_start hf, ?_, Session.step_wellFounded⟩
  · obtain ⟨hlines, hcommands, before, u, v, -, -, hlive, hexec⟩ := hs.closed e.live_start hf hls
    have hsends : s.commandsOf (i + 2) = (evaluateBlock c).sends := by
      rw [hcommands, sendsAt, session_block hc]
      rfl
    obtain ⟨infos, best, hall, hinfos, hbest, hcalm⟩ := evaluate_lines c (hacc c (List.mem_of_getElem? hc)) hlive hexec hsends
    have hread : ls.map Prod.snd = infos ++ [best] := by
      rw [hlines, List.map_map, ← hall]
      simp [Function.comp_def, Session.outputOf]
    refine ⟨hsends, hlines, ⟨infos, best, hread, fun l hl hb => ?_, hbest⟩, ?_⟩
    · obtain ⟨r, rfl⟩ := hb
      exact absurd (List.cons_prefix_cons.mp (hinfos _ hl).1).1 (by decide)
    · rw [hread]
      obtain ⟨state, a, ha, hrun⟩ := Reader.run_ends (r := evaluateReader c.fen c.depth)
        (s := (evaluateReader c.fen c.depth).init)
        (fun x hx => info_passes (hinfos x hx).2 (hinfos x hx).1) (fun _ => ⟨_, onLine_bestmove hcalm hbest⟩)
      have hchosen : a = state.chosen c.fen c.depth := by
        have hline : onLine c.fen c.depth state best = .inr a := ha
        rw [onLine_bestmove hcalm hbest] at hline
        exact (Sum.inr.inj hline).symm
      exact ⟨state, by rw [Reader.run, hrun, hchosen]⟩
  · exact session_completes threads calls hacc hs

def kingPawnFen : Str := "rnbqkbnr/pppppppp/8/8/4P3/8/PPPP1PPP/RNBQKBNR b KQkq - 0 1".toList

/-- What the engine below prints for `go` in the position of `fen`, up to its move. -/
def bookInfos (fen : Str) : List Str :=
  ["info string Available processors: 0-3".toList, "info string Using 4 threads".toList,
    if fen = kingPawnFen then
      "info depth 5 seldepth 7 multipv 1 score cp -31 wdl 28 913 59 nodes 812 nps 406000 hashfull 0 tbhits 0 time 2 pv e7e5".toList
    else
      "info depth 5 seldepth 6 multipv 1 score cp 39 wdl 71 906 23 nodes 640 nps 320000 hashfull 0 tbhits 0 time 2 pv e2e4".toList]

def bookBest (fen : Str) : Str :=
  if fen = kingPawnFen then "bestmove e7e5 ponder g1f3".toList else "bestmove e2e4 ponder e7e5".toList

set_option maxRecDepth 2000 in
private theorem bookInfos_info (fen : Str) :
    ∀ l ∈ bookInfos fen, "info ".toList <+: l ∧ ¬ "CRITICAL ERROR".toList <:+: l := by
  simp only [bookInfos, List.forall_mem_cons]
  refine ⟨by decide, by decide, ?_, by simp⟩
  have hC : ∀ l : Str, 'C' ∉ l → ¬ "CRITICAL ERROR".toList <:+: l := fun l hl h => hl (h.subset (by decide))
  split <;> exact ⟨by decide, hC _ (by decide)⟩

private theorem bookBest_bestmove (fen : Str) :
    "bestmove ".toList <+: bookBest fen ∧ ¬ "CRITICAL ERROR".toList <:+: bookBest fen := by
  rw [bookBest]
  split <;> decide

/-- An engine on four threads that keeps the text of the last position. -/
def bookReply : Str → Sent → List Str × Str
  | fen, .spawn => (["Stockfish".toList], fen)
  | fen, .command text =>
    if token text = "uci".toList then (["id name Stockfish".toList, "uciok".toList], fen)
    else if token text = "isready".toList then (["readyok".toList], fen)
    else if token text = "setoption".toList then
      (if "Threads".toList <:+: text then ["info string Using 4 threads".toList] else [], fen)
    else if token text = "position".toList then ([], text.drop "position fen ".length)
    else if token text = "go".toList then (bookInfos fen ++ [bookBest fen], fen)
    else ([], fen)

def bookEngine : UciEngine (fun _ => True) Str where
  toServer := Server.ofFun [] bookReply
  live _ := True
  live_start := trivial
  replies s c _ := ⟨(bookReply s c).1, (bookReply s c).2, rfl⟩
  speaks := by
    intro s c ls t _ _ h
    obtain rfl : (bookReply s c).1 = ls := congrArg Prod.fst h
    cases c with
    | spawn => exact ⟨trivial, by simp only [bookReply, Answers]; decide⟩
    | command text =>
      refine ⟨trivial, fun hk => ?_, fun hk => ?_, fun hk => ?_, fun hk => ?_, fun hk => ?_⟩ <;>
        simp only [bookReply, hk]
      · exact ⟨["id name Stockfish".toList], rfl, by decide⟩
      · rfl
      · change ∀ l ∈ if "Threads".toList <:+: text then ["info string Using 4 threads".toList] else [], _
        split
        · decide
        · simp
      · rfl
      · exact ⟨_, _, rfl, bookInfos_info s, bookBest_bestmove s⟩

theorem session_framed_book :
    let calls : List Call := [⟨startFen, 5, true⟩, ⟨kingPawnFen, 5, true⟩]
    ∃ t first second, Session.Reachable bookEngine.toServer (sessionBlocks 4 calls) t ∧
      readBy t 0 = some first ∧ t.commandsOf 2 = (evaluateBlock ⟨startFen, 5, true⟩).sends ∧
      first.map Prod.snd = bookInfos startFen ++ [bookBest startFen] ∧
      readBy t 1 = some second ∧ t.commandsOf 3 = (evaluateBlock ⟨kingPawnFen, 5, true⟩).sends ∧
      second.map Prod.snd = bookInfos kingPawnFen ++ [bookBest kingPawnFen] := by
  intro calls
  have hacc : ∀ c ∈ calls, True := fun _ _ => trivial
  obtain ⟨t, ht, hlen⟩ := (session_framed (e := bookEngine) 4 calls hacc _ .refl).2.2.1
  have hlen : 4 ≤ t.finished.length := hlen
  have hfirst : readBy t 0 = some t.finished[2] := List.getElem?_eq_getElem (by omega)
  have hsecond : readBy t 1 = some t.finished[3] := List.getElem?_eq_getElem (by omega)
  obtain ⟨hcalls, -⟩ := session_framed (e := bookEngine) 4 calls hacc t ht
  have hframed : ∀ b ∈ sessionBlocks 4 calls, b.Framed bookEngine.toServer bookEngine.live := session_blocks_framed 4 hacc
  refine ⟨t, _, _, ht, hfirst, (hcalls 0 _ _ rfl hfirst).1, ?_, hsecond, (hcalls 1 _ _ rfl hsecond).1, ?_⟩
  · exact Session.Reachable.sequential (f := bookReply) trivial hframed ht hfirst
  · exact Session.Reachable.sequential (f := bookReply) trivial hframed ht hsecond

end ChessAnalytics.Stockfish
