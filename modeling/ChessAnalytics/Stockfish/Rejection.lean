import ChessAnalytics.Stockfish.Printer
import ChessAnalytics.Stockfish.Session

/-! A position that the engine rejects: it prints an error and exits, while the client is still
writing, or looks at the process before it reads. -/
namespace ChessAnalytics.Stockfish
open Strings

/-- The FEN and the moves that `UCIEngine::position` hands on. -/
def positionArgs (cmd : Str) : Option (Str × List Str) :=
  match words cmd with
  | token :: kind :: rest =>
    if token = "position".toList then
      if kind = "startpos".toList then some (startFen, rest.tail)
      else if kind = "fen".toList then
        some ((rest.takeWhile (· ≠ "moves".toList)).flatMap (· ++ [' ']), (rest.dropWhile (· ≠ "moves".toList)).tail)
      else none
    else none
  | _ => none

/-- The line that the engine prints for a command that it dies of. -/
def rejection (setPosition : Str → List Str → Option Str) (cmd : Str) : Option Str :=
  (positionArgs cmd).bind fun (fen, moves) => (setPosition fen moves).map fun message => infoString (criticalError cmd message)

/-- How `evaluate` ends. -/
inductive Outcome where
  | returned (e : Evaluation)
  | runtimeError (message : Str)
  | brokenPipe
  deriving DecidableEq

/-- Where the client stands in `evaluate`. -/
inductive Client where
  | writing (commands : List Str)
  | polling (s : ReadState)
  | reading (s : ReadState)
  | finished (o : Outcome)
  deriving DecidableEq

inductive Engine where
  | running
  | failed (line : Str)
  | printed
  | exited
  deriving DecidableEq

/-- Both processes, the commands that the engine has not taken and the lines that the client has
not read. -/
structure State where
  client : Client
  stdin : List Str
  engine : Engine
  stdout : List Str
  deriving DecidableEq

inductive Event where
  | write | poll | readline
  | take | print | exit
  deriving DecidableEq

def exitedText : Str := "Stockfish process exited unexpectedly".toList
def silentText : Str := "Stockfish produced no output".toList

/-- What the client makes of a result of the loop. -/
def endOf : Except RuntimeError Evaluation → Outcome
  | .ok e => .returned e
  | .error e => .runtimeError e.message

/-- The next command is written, into a pipe that may be broken. -/
def actWrite (s : State) : Option State :=
  match s.client with
  | .writing (c :: cs) =>
    if s.engine = .exited then some { s with client := .finished .brokenPipe }
    else some { s with client := if cs = [] then .polling .start else .writing cs, stdin := s.stdin ++ [c] }
  | _ => none

/-- The first half of `_readline`. -/
def actPoll (s : State) : Option State :=
  match s.client with
  | .polling r =>
    if s.engine = .exited then some { s with client := .finished (.runtimeError exitedText) }
    else some { s with client := .reading r }
  | _ => none

/-- The second half of `_readline`, which waits on an empty pipe of a running engine, and the turn
of the loop of `evaluate`. -/
def actReadline (fen : Str) (depth : Int) (s : State) : Option State :=
  match s.client, s.stdout with
  | .reading r, line :: lines =>
    match onLine fen depth r line with
    | .inl r => some { s with client := .polling r, stdout := lines }
    | .inr result => some { s with client := .finished (endOf result), stdout := lines }
  | .reading _, [] => if s.engine = .exited then some { s with client := .finished (.runtimeError silentText) } else none
  | _, _ => none

/-- The engine takes a command. A `setoption` prints nothing; what comes behind a rejected position
is never taken. -/
def actTake (setPosition : Str → List Str → Option Str) (s : State) : Option State :=
  match s.engine, s.stdin with
  | .running, c :: cs =>
    match rejection setPosition c with
    | some line => some { s with engine := .failed line, stdin := cs }
    | none => if c = setShowWdl then some { s with stdin := cs } else none
  | _, _ => none

/-- The error line, and the empty line behind it. -/
def actPrint (s : State) : Option State :=
  match s.engine with
  | .failed line => some { s with engine := .printed, stdout := s.stdout ++ [line, []] }
  | _ => none

def actExit (s : State) : Option State := if s.engine = .printed then some { s with engine := .exited } else none

section
variable (setPosition : Str → List Str → Option Str) (fen : Str) (depth : Int)

def act (s : State) : Event → Option State
  | .write => actWrite s
  | .poll => actPoll s
  | .readline => actReadline fen depth s
  | .take => actTake setPosition s
  | .print => actPrint s
  | .exit => actExit s

def runEvents (s : State) : List Event → Option State
  | [] => some s
  | e :: es => (act setPosition fen depth s e).bind fun s => runEvents s es

end

def startState (fen : Str) (depth : Int) (showWdl : Bool) : State where
  client := .writing ((if showWdl then [setShowWdl] else []) ++ [positionFen fen, goDepth depth])
  stdin := []
  engine := .running
  stdout := []

/-- A FEN that the engine rejects, with the text of its error. -/
structure RejectedFen (setPosition : Str → List Str → Option Str) where
  fen : Str
  message : Str
  one_line : '\n' ∉ fen ∧ '\r' ∉ fen
  rejected : ∃ args, positionArgs (positionFen fen) = some args ∧ setPosition args.1 args.2 = some message

/-- The client looks at the process for the first time before it has exited. -/
def Prompt (es : List Event) : Prop := ∃ before after, es = before ++ .poll :: after ∧ .exit ∉ before

theorem prompt_concat {es : List Event} {e : Event} : Prompt (es ++ [e]) ↔ Prompt es ∨ (e = .poll ∧ .exit ∉ es) := by
  constructor
  · rintro ⟨before, after, heq, hbefore⟩
    rcases List.eq_nil_or_concat after with rfl | ⟨init, last, rfl⟩
    · obtain ⟨rfl, hlast⟩ := List.append_inj' heq rfl
      exact .inr ⟨List.singleton_inj.mp hlast, hbefore⟩
    · rw [List.concat_eq_append, ← List.cons_append, ← List.append_assoc] at heq
      exact .inl ⟨before, init, (List.append_inj' heq rfl).1, hbefore⟩
  · rintro (⟨before, after, rfl, hbefore⟩ | ⟨rfl, hexit⟩)
    · exact ⟨before, after ++ [e], by simp, hbefore⟩
    · exact ⟨es, [], rfl, hexit⟩

theorem not_prompt_of_notMem {es : List Event} (h : .poll ∉ es) : ¬ Prompt es := by
  rintro ⟨before, after, rfl, -⟩
  simp at h

section
variable {setPosition : Str → List Str → Option Str} (r : RejectedFen setPosition) (depth : Int)

def RejectedFen.line : Str := infoString (criticalError (positionFen r.fen) r.message)

def RejectedFen.reported : Outcome := .runtimeError (strip (criticalError (positionFen r.fen) r.message))

def Client.unwritten : Client → List Str
  | .writing cs => cs
  | _ => []

def Engine.output (line : Str) : Engine → List Str
  | .running | .failed _ => []
  | .printed | .exited => [line, []]

/-- The client has read nothing yet, and has or has not looked at the process. -/
def Client.Fits (es : List Event) : Client → Prop
  | .writing cs => cs ≠ [] ∧ .poll ∉ es
  | .polling rs => rs = .start ∧ .poll ∉ es
  | .reading rs => rs = .start ∧ Prompt es
  | .finished o => (o = r.reported ∧ Prompt es) ∨ ((o = .brokenPipe ∨ o = .runtimeError exitedText) ∧ ¬ Prompt es)

/-- The state behind an interleaving. -/
structure Inv (es : List Event) (s : State) : Prop where
  exited : s.engine = .exited ↔ .exit ∈ es
  failed : ∀ l, s.engine = .failed l → l = r.line
  pending : s.engine = .running → ∃ front, (∀ c ∈ front, c = setShowWdl) ∧
    s.stdin ++ s.client.unwritten = front ++ [positionFen r.fen, goDepth depth]
  output : (∀ o, s.client ≠ .finished o) → s.stdout = s.engine.output r.line
  fits : s.client.Fits r es

private theorem rejection_position : rejection setPosition (positionFen r.fen) = some r.line := by
  obtain ⟨args, hargs, herr⟩ := r.rejected
  rw [rejection, hargs, Option.bind_some]
  dsimp only
  rw [herr]
  rfl

private theorem rejection_setShowWdl : rejection setPosition setShowWdl = none := by
  have hargs : positionArgs setShowWdl = none := by decide +kernel
  rw [rejection, hargs]
  rfl

private theorem removePrefix_append (p t : Str) : removePrefix p (p ++ t) = t := by
  rw [removePrefix, if_pos (List.prefix_append p t), List.drop_left]

private theorem line_critical : "CRITICAL ERROR".toList <:+: r.line := by
  have hfront : "CRITICAL ERROR: Command `".toList = "CRITICAL ERROR".toList ++ ": Command `".toList := rfl
  unfold RejectedFen.line infoString criticalError
  rw [hfront, List.append_assoc, List.append_assoc]
  exact List.infix_append' _ _ _

private theorem onLine_rejected (rs : ReadState) : onLine r.fen depth rs r.line =
    .inr (.error ⟨strip (criticalError (positionFen r.fen) r.message)⟩) := by
  unfold onLine
  rw [if_pos (line_critical r)]
  unfold RejectedFen.line infoString
  rw [removePrefix_append]

private theorem inv_start (showWdl : Bool) : Inv r depth [] (startState r.fen depth showWdl) where
  exited := by simp [startState]
  failed := by simp [startState]
  pending _ := ⟨if showWdl then [setShowWdl] else [], by cases showWdl <;> simp, rfl⟩
  output _ := rfl
  fits := by
    refine ⟨?_, List.not_mem_nil⟩
    cases showWdl <;> simp

variable {es : List Event} {s s' : State}

private theorem mem_concat {e e' : Event} (h : e' ≠ e) : e' ∈ es ++ [e] ↔ e' ∈ es := by
  rw [List.mem_append, List.mem_singleton, or_iff_left h]

private theorem prompt_other {e : Event} (h : e ≠ .poll) : Prompt (es ++ [e]) ↔ Prompt es := by
  rw [prompt_concat, or_iff_left fun hpoll => h hpoll.1]

private theorem fits_concat {c : Client} {e : Event} (h : e ≠ .poll) (hfits : c.Fits r es) : c.Fits r (es ++ [e]) := by
  cases c with
  | writing cs => exact ⟨hfits.1, fun hmem => hfits.2 ((mem_concat h.symm).mp hmem)⟩
  | polling rs => exact ⟨hfits.1, fun hmem => hfits.2 ((mem_concat h.symm).mp hmem)⟩
  | reading rs => exact ⟨hfits.1, (prompt_other h).mpr hfits.2⟩
  | finished o =>
    rcases hfits with ⟨ho, hp⟩ | ⟨ho, hp⟩
    · exact .inl ⟨ho, (prompt_other h).mpr hp⟩
    · exact .inr ⟨ho, fun hprompt => hp ((prompt_other h).mp hprompt)⟩

private theorem inv_write (hi : Inv r depth es s) (h : actWrite s = some s') : Inv r depth (es ++ [.write]) s' := by
  have hexit : s.engine = .exited ↔ .exit ∈ es ++ [.write] := hi.exited.trans (mem_concat (by decide)).symm
  unfold actWrite at h
  split at h
  · rename_i c cs hclient
    have hfits := hi.fits
    rw [hclient] at hfits
    have hpoll : .poll ∉ es ++ [.write] := fun hmem => hfits.2 ((mem_concat (by decide)).mp hmem)
    split at h
    · rename_i hexited
      obtain rfl := Option.some_inj.mp h
      refine ⟨hexit, hi.failed, fun hrun => ?_, fun hnot => absurd rfl (hnot _), .inr ⟨.inl rfl, not_prompt_of_notMem hpoll⟩⟩
      exact absurd (hrun.symm.trans hexited) (by decide)
    · obtain rfl := Option.some_inj.mp h
      have hunwritten : (if cs = [] then Client.polling .start else .writing cs).unwritten = cs := by
        split
        · rename_i hnil
          exact hnil.symm
        · rfl
      refine ⟨hexit, hi.failed, fun hrun => ?_, fun _ => hi.output (by simp [hclient]), ?_⟩
      · obtain ⟨front, hfront, heq⟩ := hi.pending hrun
        refine ⟨front, hfront, ?_⟩
        rw [← heq, hunwritten, hclient, List.append_assoc]
        rfl
      · dsimp only
        split
        · exact ⟨rfl, hpoll⟩
        · rename_i hne
          exact ⟨hne, hpoll⟩
  · cases h

private theorem inv_poll (hi : Inv r depth es s) (h : actPoll s = some s') : Inv r depth (es ++ [.poll]) s' := by
  have hexit : s.engine = .exited ↔ .exit ∈ es ++ [.poll] := hi.exited.trans (mem_concat (by decide)).symm
  unfold actPoll at h
  split at h
  · rename_i rs hclient
    have hfits := hi.fits
    rw [hclient] at hfits
    obtain ⟨hstart, hpoll⟩ := hfits
    split at h
    · rename_i hexited
      obtain rfl := Option.some_inj.mp h
      refine ⟨hexit, hi.failed, fun hrun => ?_, fun hnot => absurd rfl (hnot _), .inr ⟨.inr rfl, ?_⟩⟩
      · exact absurd (hrun.symm.trans hexited) (by decide)
      · rw [prompt_concat]
        rintro (hp | ⟨-, hnone⟩)
        · exact not_prompt_of_notMem hpoll hp
        · exact hnone (hi.exited.mp hexited)
    · rename_i hlive
      obtain rfl := Option.some_inj.mp h
      refine ⟨hexit, hi.failed, fun hrun => ?_, fun _ => hi.output (by simp [hclient]), hstart, ?_⟩
      · obtain ⟨front, hfront, heq⟩ := hi.pending hrun
        rw [hclient] at heq
        exact ⟨front, hfront, heq⟩
      · exact prompt_concat.mpr (.inr ⟨rfl, fun hmem => hlive (hi.exited.mpr hmem)⟩)
  · cases h

private theorem inv_readline (hi : Inv r depth es s) (h : actReadline r.fen depth s = some s') :
    Inv r depth (es ++ [.readline]) s' := by
  have hexit : s.engine = .exited ↔ .exit ∈ es ++ [.readline] := hi.exited.trans (mem_concat (by decide)).symm
  unfold actReadline at h
  split at h
  · rename_i rs line lines hclient hstdout
    have hfits := hi.fits
    rw [hclient] at hfits
    have houtput := hi.output (by simp [hclient])
    rw [hstdout] at houtput
    have hprinted : line = r.line ∧ s.engine ≠ .running := by
      cases hengine : s.engine with
      | running => simp [hengine, Engine.output] at houtput
      | failed l => simp [hengine, Engine.output] at houtput
      | printed => exact ⟨(List.cons.inj (hengine ▸ houtput)).1, by simp⟩
      | exited => exact ⟨(List.cons.inj (hengine ▸ houtput)).1, by simp⟩
    rw [hprinted.1, onLine_rejected] at h
    obtain rfl := Option.some_inj.mp h
    refine ⟨hexit, hi.failed, fun hrun => absurd hrun hprinted.2, fun hnot => absurd rfl (hnot _), .inl ⟨rfl, ?_⟩⟩
    exact (prompt_other (by decide)).mpr hfits.2
  · rename_i rs hclient hstdout
    split at h
    · rename_i hexited
      have houtput := hi.output (by simp [hclient])
      rw [hstdout, hexited] at houtput
      cases houtput
    · cases h
  · cases h

private theorem inv_take (hi : Inv r depth es s) (h : actTake setPosition s = some s') :
    Inv r depth (es ++ [.take]) s' := by
  unfold actTake at h
  split at h
  · rename_i c cs hengine hstdin
    obtain ⟨front, hfront, heq⟩ := hi.pending hengine
    have hlive : .exit ∉ es ++ [.take] := by
      rw [mem_concat (by decide), ← hi.exited, hengine]
      decide
    have houtput := hi.output
    rw [hengine] at houtput
    rw [hstdin, List.cons_append] at heq
    cases front with
    | nil =>
      obtain ⟨rfl, -⟩ := List.cons.inj heq
      rw [rejection_position r] at h
      obtain rfl := Option.some_inj.mp h
      exact ⟨⟨fun hexited => (by cases hexited), fun hmem => absurd hmem hlive⟩, fun l hl => (Engine.failed.inj hl).symm,
        fun hrun => (by cases hrun), houtput, fits_concat r (by decide) hi.fits⟩
    | cons f front =>
      obtain ⟨rfl, hrest⟩ := List.cons.inj heq
      obtain rfl := hfront c List.mem_cons_self
      rw [rejection_setShowWdl] at h
      dsimp only at h
      rw [if_pos rfl] at h
      obtain rfl := Option.some_inj.mp h
      refine ⟨⟨fun hexited => ?_, fun hmem => absurd hmem hlive⟩, fun l hl => ?_, fun _ => ⟨front, ?_, hrest⟩, ?_,
        fits_concat r (by decide) hi.fits⟩
      · exact absurd (hengine.symm.trans hexited) (by decide)
      · exact absurd (hengine.symm.trans hl) (fun h => by cases h)
      · exact fun c hc => hfront c (List.mem_cons_of_mem _ hc)
      · intro hnot
        rw [houtput hnot, hengine]
  · cases h

private theorem inv_print (hi : Inv r depth es s) (h : actPrint s = some s') : Inv r depth (es ++ [.print]) s' := by
  unfold actPrint at h
  split at h
  · rename_i line hengine
    obtain rfl := Option.some_inj.mp h
    have hlive : .exit ∉ es ++ [.print] := by
      rw [mem_concat (by decide), ← hi.exited, hengine]
      exact fun h => by cases h
    refine ⟨⟨fun hexited => (by cases hexited), fun hmem => absurd hmem hlive⟩, fun l hl => (by cases hl), fun hrun => (by cases hrun),
      fun hnot => ?_, fits_concat r (by decide) hi.fits⟩
    have houtput := hi.output hnot
    rw [hengine] at houtput
    rw [houtput, hi.failed line hengine]
    rfl
  · cases h

private theorem inv_exit (hi : Inv r depth es s) (h : actExit s = some s') : Inv r depth (es ++ [.exit]) s' := by
  unfold actExit at h
  split at h
  · rename_i hengine
    obtain rfl := Option.some_inj.mp h
    refine ⟨⟨fun _ => by simp, fun _ => rfl⟩, fun l hl => (by cases hl), fun hrun => (by cases hrun), fun hnot => ?_,
      fits_concat r (by decide) hi.fits⟩
    have houtput := hi.output hnot
    rw [hengine] at houtput
    exact houtput
  · cases h

private theorem inv_act {e : Event} (hi : Inv r depth es s) (h : act setPosition r.fen depth s e = some s') :
    Inv r depth (es ++ [e]) s' := by
  cases e with
  | write => exact inv_write r depth hi h
  | poll => exact inv_poll r depth hi h
  | readline => exact inv_readline r depth hi h
  | take => exact inv_take r depth hi h
  | print => exact inv_print r depth hi h
  | exit => exact inv_exit r depth hi h

private theorem inv_run {fs : List Event} (hi : Inv r depth es s) (h : runEvents setPosition r.fen depth s fs = some s') :
    Inv r depth (es ++ fs) s' := by
  induction fs generalizing es s with
  | nil =>
    obtain rfl := Option.some_inj.mp h
    rwa [List.append_nil]
  | cons e fs ih =>
    obtain ⟨t, ht, hrun⟩ := Option.bind_eq_some_iff.mp h
    have hrest := ih (inv_act r depth hi ht) hrun
    rwa [List.append_assoc] at hrest

private theorem take_enabled (hi : Inv r depth es s) (hrun : s.engine = .running) (hwritten : s.client.unwritten = []) :
    ∃ s', actTake setPosition s = some s' := by
  obtain ⟨front, hfront, heq⟩ := hi.pending hrun
  rw [hwritten, List.append_nil] at heq
  rw [actTake, hrun, heq]
  cases front with
  | nil =>
    refine ⟨{ s with engine := .failed r.line, stdin := [goDepth depth] }, ?_⟩
    dsimp only [List.nil_append]
    rw [rejection_position r]
  | cons c front =>
    obtain rfl := hfront c List.mem_cons_self
    refine ⟨{ s with stdin := front ++ [positionFen r.fen, goDepth depth] }, ?_⟩
    dsimp only [List.cons_append]
    rw [rejection_setShowWdl]
    dsimp only
    rw [if_pos rfl, ← hrun]

private theorem readline_enabled {rs : ReadState} (hclient : s.client = .reading rs) (hstdout : s.stdout = [r.line, []]) :
    ∃ s', actReadline r.fen depth s = some s' := by
  rw [actReadline, hclient, hstdout]
  dsimp only
  rw [onLine_rejected]
  exact ⟨_, rfl⟩

private theorem enabled (hi : Inv r depth es s) (hnot : ∀ o, s.client ≠ .finished o) :
    ∃ e s', act setPosition r.fen depth s e = some s' := by
  cases hclient : s.client with
  | writing cs =>
    have hfits := hi.fits
    rw [hclient] at hfits
    obtain ⟨c, cs, rfl⟩ := List.exists_cons_of_ne_nil hfits.1
    refine ⟨.write, ?_⟩
    rw [act, actWrite, hclient]
    dsimp only
    split <;> exact ⟨_, rfl⟩
  | polling rs =>
    refine ⟨.poll, ?_⟩
    rw [act, actPoll, hclient]
    dsimp only
    split <;> exact ⟨_, rfl⟩
  | reading rs =>
    have houtput := hi.output hnot
    cases hengine : s.engine with
    | running => exact ⟨.take, take_enabled r depth hi hengine (by rw [hclient]; rfl)⟩
    | failed l =>
      refine ⟨.print, ?_⟩
      rw [act, actPrint, hengine]
      exact ⟨_, rfl⟩
    | printed =>
      rw [hengine] at houtput
      exact ⟨.readline, readline_enabled r depth hclient houtput⟩
    | exited =>
      rw [hengine] at houtput
      exact ⟨.readline, readline_enabled r depth hclient houtput⟩
  | finished o => exact absurd hclient (hnot o)

private theorem reported_ne_exited : r.reported ≠ .runtimeError exitedText := by
  intro h
  have htext : strip (criticalError (positionFen r.fen) r.message) = exitedText := Outcome.runtimeError.inj h
  have hcritical : "CRITICAL".toList <+: criticalError (positionFen r.fen) r.message := by
    have hfront : "CRITICAL ERROR: Command `".toList = "CRITICAL".toList ++ " ERROR: Command `".toList := rfl
    unfold criticalError
    rw [hfront, List.append_assoc, List.append_assoc]
    exact List.prefix_append _ _
  have hprefix := prefix_strip (by decide) (by decide) hcritical
  rw [htext] at hprefix
  exact absurd hprefix (by decide)

/-- Whatever the interleaving, the call never waits for ever; and when it ends, it ends with the
engine's error exactly if the client has looked at the process before the engine exited. Otherwise
it ends with a broken pipe, or with the error of a process that is gone. -/
theorem rejection_reported_iff (showWdl : Bool) (hrun : runEvents setPosition r.fen depth (startState r.fen depth showWdl) es = some s) :
    (∀ o, s.client = .finished o → (o = r.reported ↔ Prompt es) ∧
      (o = r.reported ∨ o = .brokenPipe ∨ o = .runtimeError exitedText)) ∧
    ((∀ o, s.client ≠ .finished o) → ∃ e s', act setPosition r.fen depth s e = some s') := by
  have hi := inv_run r depth (inv_start r depth showWdl) hrun
  rw [List.nil_append] at hi
  refine ⟨fun o ho => ?_, enabled r depth hi⟩
  have hfits := hi.fits
  rw [ho] at hfits
  rcases hfits with ⟨hreported, hprompt⟩ | ⟨hother, hlate⟩
  · exact ⟨iff_of_true hreported hprompt, .inl hreported⟩
  · refine ⟨iff_of_false (fun hreported => ?_) hlate, .inr hother⟩
    rcases hother with rfl | rfl
    · cases hreported
    · exact reported_ne_exited r hreported.symm

end

def kinglessFen : Str := "8/8/8/8/8/8/8/8 w - - 0 1".toList

/-- `set_position` on the kingless board. -/
def kinglessError (fen : Str) (_moves : List Str) : Option Str :=
  if fen = "8/8/8/8/8/8/8/8 w - - 0 1 ".toList then some "Unsupported position. Incorrect number of kings.".toList
  else none

def kingless : RejectedFen kinglessError where
  fen := kinglessFen
  message := "Unsupported position. Incorrect number of kings.".toList
  one_line := by decide
  rejected := ⟨("8/8/8/8/8/8/8/8 w - - 0 1 ".toList, []), by decide +kernel, rfl⟩

/-- The client polls, and reads, before the engine exits. -/
def promptRun : List Event := [.write, .take, .write, .print, .poll, .exit, .readline]

/-- The engine exits before the second command is written. -/
def brokenRun : List Event := [.write, .take, .print, .exit, .write]

/-- The engine exits before the client looks at it for the first time. -/
def goneRun : List Event := [.write, .take, .write, .print, .exit, .poll]

private theorem promptRun_ends : ((runEvents kinglessError kingless.fen 12 (startState kingless.fen 12 false) promptRun).map
    fun s => decide (∃ o ∈ [kingless.reported], s.client = .finished o)) = some true := by
  decide +kernel

theorem rejection_reported_prompt : ∃ s o,
    runEvents kinglessError kingless.fen 12 (startState kingless.fen 12 false) promptRun = some s ∧
      s.client = .finished o ∧ o = kingless.reported := by
  obtain ⟨s, hs, hends⟩ := Option.map_eq_some_iff.mp promptRun_ends
  obtain ⟨o, -, ho⟩ := of_decide_eq_true hends
  have hprompt : Prompt promptRun := ⟨[.write, .take, .write, .print], [.exit, .readline], rfl, by decide⟩
  exact ⟨s, o, hs, ho, (((rejection_reported_iff kingless 12 false hs).1 o ho).1).mpr hprompt⟩

/-- Both other ends come about, the second with the error line unread in the pipe. -/
theorem rejection_lost :
    (runEvents kinglessError kingless.fen 12 (startState kingless.fen 12 false) brokenRun).map State.client =
      some (.finished .brokenPipe) ∧
    (runEvents kinglessError kingless.fen 12 (startState kingless.fen 12 false) goneRun).map
      (fun s => (s.client, s.stdout)) = some (.finished (.runtimeError exitedText), [kingless.line, []]) := by
  constructor <;> decide +kernel

end ChessAnalytics.Stockfish
