import ChessAnalytics.Lc0.Commands
import ChessAnalytics.Systems.Channel

/-! A session of `Lc0UCI` behind its handshake: the client that sends two commands and drains the
queue, its reader thread, and lc0, which takes a command while a search is still running. -/
namespace ChessAnalytics.Lc0
open Strings Systems Board

def sentinel : Str := "bestmove".toList

/-- The lines of a search: the last one, and no other, is the bestmove line. -/
structure Answer where
  infos : List Str
  best : Str
  infos_open : ∀ l ∈ infos, ¬ sentinel <:+: l
  best_prefix : "bestmove ".toList <+: best

def Answer.lines (a : Answer) : List Str := a.infos ++ [a.best]

/-- What the model leaves open of lc0: its move parser, and the lines with which it answers an
accepted `go`, which may depend on how many queries there were. -/
structure Behaviour where
  playMove : PlayMove
  answers : Nat → GameState → GoParams → Answer

/-- A line of lc0's output: the number of the query whose command it belongs to, and for a line of a
search the position searched. -/
structure Line where
  call : Nat
  searched : Option GameState
  text : Str
  deriving DecidableEq

/-- A search that has still a line to print. -/
structure Search where
  call : Nat
  state : GameState
  next : Str
  later : List Str

def Search.lines (s : Search) : List Line := (s.next :: s.later).map (⟨s.call, some s.state, ·⟩)

def Search.ofAnswer (call : Nat) (state : GameState) (a : Answer) : Search :=
  match a.infos with
  | [] => ⟨call, state, a.best, []⟩
  | l :: ls => ⟨call, state, l, ls ++ [a.best]⟩

/-- `last_position_` and the running search. -/
structure Engine where
  position : Option GameState := none
  search : Option Search := none

/-- `Exception::what` ends at a zero character. -/
def whatText (msg : Str) : Str := msg.takeWhile (· ≠ Char.ofNat 0)

/-- The line that `RunEngine` prints for an exception. -/
def errorLine (call : Nat) (msg : Str) : Line := ⟨call, none, "error ".toList ++ whatText msg⟩

namespace Engine

/-- The lines that the running search has still to print. -/
def searchLines (e : Engine) : List Line := (e.search.map Search.lines).getD []

/-- `Engine::SetPosition`: the search is stopped first, the position kept when the new one fails. -/
def setPosition (playMove : PlayMove) (e : Engine) (fen : Str) (moves : List Str) : Engine × Except Str Unit :=
  match makeGameState playMove fen moves with
  | .ok state => ({ position := some state, search := none }, .ok ())
  | .error msg => ({ e with search := none }, .error msg)

/-- `Engine::NewGame`, where `Engine::Go` has no position yet. -/
def ensurePosition (playMove : PlayMove) (e : Engine) : Engine × Except Str Unit :=
  match e.position with
  | some _ => (e, .ok ())
  | none => e.setPosition playMove startposFen []

/-- `Engine::Go`. Pondering is off. -/
def go (b : Behaviour) (call : Nat) (e : Engine) (params : GoParams) : Engine × Except Str Unit :=
  if params.ponder then (e, .error "Ponder is not enabled, but the ponder search is requested.".toList)
  else
    let (e, r) := e.ensurePosition b.playMove
    match r, e.position with
    | .ok _, some state => ({ e with search := some (.ofAnswer call state (b.answers call state params)) }, .ok ())
    | r, _ => (e, r)

/-- One turn of the loop of `RunEngine`: the engine behind it and the lines it prints itself. -/
def execute (b : Behaviour) (e : Engine) (c : Nat × Str) : Engine × List Line :=
  let (e, r) : Engine × Except Str Unit := match processLine c.2 with
    | .error msg => (e, .error msg)
    | .ok none => (e, .ok ())
    | .ok (some (.position fen moves)) => e.setPosition b.playMove fen moves
    | .ok (some (.go params)) => e.go b c.1 params
  (e, match r with
    | .ok _ => []
    | .error msg => [errorLine c.1 msg])

def print (e : Engine) : Option (Line × Engine) :=
  e.search.map fun s =>
    (⟨s.call, some s.state, s.next⟩,
      { e with search := match s.later with
          | [] => none
          | l :: ls => some { s with next := l, later := ls } })

end Engine

/-- How `_drain_until` ended. -/
inductive Ending where
  | sentinel | deadline | eof
  deriving DecidableEq

/-- What became of a query: the lines that its drain returned, or an exception of `_send`. -/
inductive Outcome where
  | returned (lines : List Line) (ending : Ending)
  | raised
  deriving DecidableEq

/-- Where the client is: between two queries, between its two commands, or draining. -/
inductive Phase where
  | idle
  | positioned
  | draining (got : List Line)

structure Session where
  engine : Engine := {}
  alive : Bool := true
  stdin : List (Nat × Str) := []
  channel : Channel Line := {}
  phase : Phase := .idle
  outcomes : List Outcome := []

/-- The events of a session. `deadline` stands for the clock: it may pass at any time. -/
inductive Event where
  | send | execute | print | stop | read | take | deadline
  deriving DecidableEq

namespace Session

/-- The number of the query the client is at. -/
def call (s : Session) : Nat := s.outcomes.length

def finish (s : Session) (o : Outcome) : Session := { s with phase := .idle, outcomes := s.outcomes ++ [o] }

/-- `_send`; the write fails when the engine is gone. -/
def sendLine (s : Session) (line : Str) (phase : Phase) : Session :=
  if s.alive then { s with stdin := s.stdin ++ [(s.call, line)], phase := phase } else s.finish .raised

/-- One event of a session that makes these queries; `none` when it cannot happen. -/
def act (b : Behaviour) (queries : List Query) (s : Session) : Event → Option Session
  | .send =>
    match s.phase, queries[s.call]? with
    | .idle, some q => some (s.sendLine (positionCommand q) .positioned)
    | .positioned, some q => some (s.sendLine (goCommand q) (.draining []))
    | _, _ => none
  | .execute =>
    match s.alive, s.stdin with
    | true, c :: cs =>
      let r := s.engine.execute b c
      some { s with engine := r.1, stdin := cs, channel := s.channel.write r.2 }
    | _, _ => none
  | .print =>
    if s.alive then
      s.engine.print.map fun r => { s with engine := r.2, channel := s.channel.write [r.1] }
    else none
  | .stop => if s.alive then some { s with alive := false } else none
  | .read => (s.channel.read (!s.alive)).map fun c => { s with channel := c }
  | .take =>
    match s.phase, s.channel.take with
    | .draining got, some (none, c) => some ({ s with channel := c }.finish (.returned got .eof))
    | .draining got, some (some l, c) =>
      some (if sentinel <:+: l.text then { s with channel := c }.finish (.returned (got ++ [l]) .sentinel)
        else { s with channel := c, phase := .draining (got ++ [l]) })
    | _, _ => none
  | .deadline =>
    match s.phase with
    | .draining got => some (s.finish (.returned got .deadline))
    | _ => none

/-- The states that some order of events leads to. -/
inductive Reachable (b : Behaviour) (queries : List Query) : Session → Prop where
  | start : Reachable b queries {}
  | step {s s' : Session} {e : Event} (h : Reachable b queries s) (hact : s.act b queries e = some s') :
      Reachable b queries s'

def run (b : Behaviour) (queries : List Query) : Session → List Event → Option Session
  | s, [] => some s
  | s, e :: es => (s.act b queries e).bind fun s' => run b queries s' es

theorem reachable_of_run {b : Behaviour} {queries : List Query} {s s' : Session} {es : List Event}
    (hs : Reachable b queries s) (h : run b queries s es = some s') : Reachable b queries s' := by
  induction es generalizing s with
  | nil =>
    obtain rfl := Option.some_inj.mp h
    exact hs
  | cons e es ih =>
    obtain ⟨t, ht, hrest⟩ := Option.bind_eq_some_iff.mp h
    exact ih (hs.step ht) hrest

/-- What an event can do. -/
inductive Step (b : Behaviour) (queries : List Query) (s : Session) : Session → Prop where
  | sendPosition {q : Query} (hphase : s.phase = .idle) (hq : queries[s.call]? = some q) (halive : s.alive = true) :
      Step b queries s { s with stdin := s.stdin ++ [(s.call, positionCommand q)], phase := .positioned }
  | sendGo {q : Query} (hphase : s.phase = .positioned) (hq : queries[s.call]? = some q) (halive : s.alive = true) :
      Step b queries s { s with stdin := s.stdin ++ [(s.call, goCommand q)], phase := .draining [] }
  | sendFails (halive : s.alive = false) : Step b queries s (s.finish .raised)
  | execute {c : Nat × Str} {cs : List (Nat × Str)} (halive : s.alive = true) (hstdin : s.stdin = c :: cs) :
      Step b queries s { s with engine := (s.engine.execute b c).1, stdin := cs,
                                channel := s.channel.write (s.engine.execute b c).2 }
  | print {l : Line} {e : Engine} (halive : s.alive = true) (hprint : s.engine.print = some (l, e)) :
      Step b queries s { s with engine := e, channel := s.channel.write [l] }
  | stop : Step b queries s { s with alive := false }
  | read {c : Channel Line} (hread : s.channel.read (!s.alive) = some c) : Step b queries s { s with channel := c }
  | takeEof {got : List Line} {c : Channel Line} (hphase : s.phase = .draining got)
      (htake : s.channel.take = some (none, c)) :
      Step b queries s ({ s with channel := c }.finish (.returned got .eof))
  | takeSentinel {got : List Line} {l : Line} {c : Channel Line} (hphase : s.phase = .draining got)
      (htake : s.channel.take = some (some l, c)) (hl : sentinel <:+: l.text) :
      Step b queries s ({ s with channel := c }.finish (.returned (got ++ [l]) .sentinel))
  | takeLine {got : List Line} {l : Line} {c : Channel Line} (hphase : s.phase = .draining got)
      (htake : s.channel.take = some (some l, c)) (hl : ¬ sentinel <:+: l.text) :
      Step b queries s { s with channel := c, phase := .draining (got ++ [l]) }
  | deadline {got : List Line} (hphase : s.phase = .draining got) :
      Step b queries s (s.finish (.returned got .deadline))

private theorem step_sendLine {b : Behaviour} {queries : List Query} {s : Session} {line : Str} {phase : Phase}
    (h : s.alive = true → Step b queries s { s with stdin := s.stdin ++ [(s.call, line)], phase := phase }) :
    Step b queries s (s.sendLine line phase) := by
  rw [sendLine]
  split
  · rename_i halive
    exact h halive
  · rename_i halive
    exact .sendFails (Bool.eq_false_iff.mpr halive)

theorem step_of_act {b : Behaviour} {queries : List Query} {s s' : Session} {e : Event}
    (h : s.act b queries e = some s') : Step b queries s s' := by
  cases e with
  | send =>
    rw [act] at h
    split at h
    · rename_i q hphase hq
      obtain rfl := Option.some_inj.mp h
      exact step_sendLine fun halive => .sendPosition hphase hq halive
    · rename_i q hphase hq
      obtain rfl := Option.some_inj.mp h
      exact step_sendLine fun halive => .sendGo hphase hq halive
    · cases h
  | execute =>
    rw [act] at h
    split at h
    · rename_i c cs halive hstdin
      obtain rfl := Option.some_inj.mp h
      exact .execute halive hstdin
    · cases h
  | print =>
    rw [act] at h
    split at h
    · rename_i halive
      obtain ⟨r, hr, rfl⟩ := Option.map_eq_some_iff.mp h
      exact .print halive hr
    · cases h
  | stop =>
    rw [act] at h
    split at h
    · obtain rfl := Option.some_inj.mp h
      exact .stop
    · cases h
  | read =>
    obtain ⟨c, hc, rfl⟩ := Option.map_eq_some_iff.mp h
    exact .read hc
  | take =>
    rw [act] at h
    split at h
    · rename_i got c hphase htake
      obtain rfl := Option.some_inj.mp h
      exact .takeEof hphase htake
    · rename_i got l c hphase htake
      obtain rfl := Option.some_inj.mp h
      by_cases hl : sentinel <:+: l.text
      · rw [if_pos hl]; exact .takeSentinel hphase htake hl
      · rw [if_neg hl]; exact .takeLine hphase htake hl
    · cases h
  | deadline =>
    rw [act] at h
    split at h
    · rename_i got hphase
      obtain rfl := Option.some_inj.mp h
      exact .deadline hphase
    · cases h

end Session

end ChessAnalytics.Lc0
