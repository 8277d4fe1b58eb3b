import Mathlib.Data.List.Forall2
import ReactiveLang.Proofs.Analysis.History
import ReactiveLang.Proofs.Session.Completing

/-!
# Restarting

A restart leaves a session as a new one is after its first evaluation, but for the subscriber. What
survives it otherwise, the memory of the context, cannot be told from a new one.

* `Engine`: a session with the memory of the context that it asks. `Engine.Serves`: what a host gets
  for a command or a query, whatever the commands ask the context on the way.
* `Session.respond_heard`: sessions that differ only in the subscriber give the same answers, and
  stay like this.
* `restart_renews`: after any requests and a restart, all later requests get what a new engine gives
  after its first evaluation.
-/

namespace ReactiveLang

/-! ## What a host can see -/

/-- What a host can see of a session without a command. -/
structure View where
  depth : Nat
  currentValue? : Option Value
  position : Nat
  stepCount : Nat
  next? : Option Step
  status : Status
  result : Option Value
  isFinished : Bool
  hasPendingChanges : Bool
  passNumber : Nat
  cursorPass : Nat
  streams : Streams
  stream : StreamId → Except EngineError Stream
  streamValue : StreamId → Except EngineError (Option Value)
  conflicts : List Conflict
  log : Array Step
  history : Array Reaction
  config : Config
  description : String

namespace Session

def view (s : Session) : View where
  depth := s.machine.depth
  currentValue? := s.machine.currentValue?
  position := s.position
  stepCount := s.log.size
  next? := s.machine.next?
  status := s.machine.status
  result := s.result
  isFinished := s.isFinished
  hasPendingChanges := s.hasPendingChanges
  passNumber := s.passNumber
  cursorPass := s.cursorPass
  streams := s.streams
  stream := s.stream
  streamValue := s.streamValue
  conflicts := s.program.conflicts
  log := s.log
  history := s.history
  config := s.program.config
  description := s.describe

/-! ## What running does not read -/

/-- The session with another history, other pending changes and another subscriber. -/
def beside (s : Session) (history : Array Reaction) (pending : List StreamId)
    (notices : Option (List Notice)) : Session :=
  { s with history, pending, notices }

variable (s : Session) (history : Array Reaction) (pending : List StreamId)
  (notices : Option (List Notice))

theorem advance_beside (replaying : Bool) :
    (s.beside history pending notices).advance replaying =
      (s.advance replaying).map fun (step, s) => (step, s.beside history pending notices) := by
  simp only [advance, beside, record]
  split <;> rfl

theorem replay_beside (count : Nat) :
    replay count (s.beside history pending notices) =
      (replay count s).beside history pending notices := by
  induction count generalizing s with
  | zero => rfl
  | succ count ih =>
    rw [replay, replay, advance_beside]
    cases s.advance true with
    | none => rfl
    | some taken => exact ih taken.2

theorem seek_beside (place offset : Nat) :
    (s.beside history pending notices).seek place offset =
      (s.seek place offset).beside history pending notices := by
  have hmust : (s.beside history pending notices).mustRestore place offset =
      s.mustRestore place offset := rfl
  unfold seek
  dsimp only
  rw [hmust]
  split
  · exact replay_beside (s.restore _ _) _ _ _ _
  · exact replay_beside s _ _ _ _

theorem passBefore_beside (target count : Nat) :
    (s.beside history pending notices).passBefore target count = s.passBefore target count := by
  induction count with
  | zero => rfl
  | succ place ih =>
    rw [passBefore, passBefore, ih]
    rfl

theorem moveTo_beside (index : Nat) :
    (s.beside history pending notices).moveTo index =
      (s.moveTo index).beside history pending notices := by
  unfold moveTo
  dsimp only
  rw [passBefore_beside]
  exact seek_beside _ _ _ _ _ _

theorem logged_beside (step : Step) :
    (s.beside history pending notices).logged step =
      (s.logged step).beside history pending notices := by
  unfold logged keepSnapshot
  dsimp only [beside]
  split <;> split <;> rfl

theorem step_beside :
    (s.beside history pending notices).step =
      (s.step.1, s.step.2.beside history pending notices) := by
  have hcross : (s.beside history pending notices).crossOver =
      s.crossOver.beside history pending notices := by
    have hguard : ((s.beside history pending notices).machine.isFinished &&
        decide ((s.beside history pending notices).cursor <
          (s.beside history pending notices).newest)) =
        (s.machine.isFinished && decide (s.cursor < s.newest)) := rfl
    unfold crossOver
    rw [hguard]
    split
    · exact seek_beside _ _ _ _ _ _
    · rfl
  have hend : (s.crossOver.beside history pending notices).position = s.crossOver.position := rfl
  unfold step
  rw [hcross]
  dsimp only
  rw [hend, advance_beside]
  rw [show (s.crossOver.beside history pending notices).log = s.crossOver.log from rfl]
  cases s.crossOver.advance (!decide (s.crossOver.log.size ≤ s.crossOver.position)) with
  | none => rfl
  | some taken =>
    dsimp only [Option.map_some]
    split
    · rw [logged_beside]
    · rfl

theorem runOut_beside (fuel : Nat) :
    runOut fuel (s.beside history pending notices) =
      (runOut fuel s).beside history pending notices := by
  induction fuel generalizing s with
  | zero => rfl
  | succ fuel ih =>
    rw [runOut, runOut, step_beside]
    rcases s.step with ⟨_ | step, s'⟩
    · rfl
    · exact ih s'

/-- Evaluating neither reads nor changes the history, pending changes and the subscriber. -/
theorem evaluate_beside :
    (s.beside history pending notices).evaluate =
      (s.evaluate.1, s.evaluate.2.beside history pending notices) := by
  have hend : (s.beside history pending notices).position = s.position := rfl
  unfold evaluate
  dsimp only
  rw [hend, moveTo_beside]
  rw [show (s.beside history pending notices).log = s.log from rfl]
  split
  · rw [runOut_beside]
    rfl
  · rw [runOut_beside]
    rfl

/-- Takes no notice of the history, pending changes and the subscriber, and keeps them. -/
def Aside (f : Session → Session) : Prop :=
  ∀ s history pending notices, f (s.beside history pending notices) =
    (f s).beside history pending notices

theorem aside_moveTo (index : Nat) : Aside fun s => s.moveTo index :=
  fun s history pending notices => s.moveTo_beside history pending notices index

theorem aside_step : Aside fun s => s.step.2 := fun s history pending notices =>
  congrArg Prod.snd (s.step_beside history pending notices)

theorem aside_evaluate : Aside fun s => s.evaluate.2 := fun s history pending notices =>
  congrArg Prod.snd (s.evaluate_beside history pending notices)

/-- The session with another subscriber. -/
def heard (s : Session) (notices : Option (List Notice)) : Session := { s with notices }

theorem heard_eq (s : Session) (notices : Option (List Notice)) :
    s.heard notices = s.beside s.history s.pending notices := rfl

theorem Aside.kept {f : Session → Session} (hf : Aside f) (s : Session) :
    (f s).history = s.history ∧ (f s).pending = s.pending ∧ (f s).notices = s.notices := by
  have h := hf s s.history s.pending s.notices
  rw [show s.beside s.history s.pending s.notices = s from rfl] at h
  rw [h]
  exact ⟨rfl, rfl, rfl⟩

theorem Aside.heard {f : Session → Session} (hf : Aside f) (s : Session)
    (notices : Option (List Notice)) : f (s.heard notices) = (f s).heard notices := by
  obtain ⟨hhistory, hpending, -⟩ := hf.kept s
  rw [heard_eq, heard_eq, hf, hhistory, hpending]

theorem evaluate_heard (s : Session) (notices : Option (List Notice)) :
    (s.heard notices).evaluate = (s.evaluate.1, s.evaluate.2.heard notices) := by
  refine Prod.ext ?_ (aside_evaluate.heard s notices)
  rw [heard_eq, evaluate_beside]

theorem beginPass_heard (s : Session) (notices : Option (List Notice)) (pass : Pass) :
    (s.heard notices).beginPass pass = (s.beginPass pass).heard notices := rfl

theorem nextPass_heard (s : Session) (notices : Option (List Notice)) :
    (s.heard notices).nextPass = s.nextPass := rfl

theorem react_heard (s : Session) (notices : Option (List Notice)) :
    ∃ notices', (s.heard notices).react = (s.react.1, s.react.2.heard notices') := by
  have hnext : (s.heard notices).followed = s.followed.heard notices := by
    rw [followed, followed, evaluate_heard, nextPass_heard, beginPass_heard]
  rw [react_eq, react_eq, hnext, evaluate_heard]
  generalize s.followed.evaluate = last
  exact ⟨_, rfl⟩

theorem restart_heard (s : Session) (notices : Option (List Notice)) :
    (s.heard notices).restart = (s.restart.1, s.restart.2.heard notices) := by
  have hrenewed : ∀ s : Session, s.restart = s.renewed.evaluate := fun _ => rfl
  rw [hrenewed, hrenewed, ← evaluate_heard]
  rfl

end Session

/-- The answers are the same, or both are what a subscriber has not fetched yet. -/
inductive Answer.Alike : Answer → Answer → Prop where
  | same (a : Answer) : Alike a a
  | notices (unread unread' : List Notice) : Alike (.notices unread) (.notices unread')

namespace Session

/-- Whoever listens, a command has the same answer and the same effect. -/
theorem respond_heard (s : Session) (notices : Option (List Notice)) (command : Command) :
    ((s.respond command).1.Alike ((s.heard notices).respond command).1) ∧
      ∃ notices', ((s.heard notices).respond command).2 =
        (s.respond command).2.heard notices' := by
  cases command with
  | step =>
    have hanswer : (s.heard notices).step.1 = s.step.1 := by rw [heard_eq, step_beside]
    have hafter := aside_step.heard s notices
    simp only [respond, hanswer, hafter]
    exact ⟨.same _, notices, rfl⟩
  | moveTo index =>
    have hafter := (aside_moveTo index).heard s notices
    simp only [respond, hafter]
    exact ⟨.same _, notices, rfl⟩
  | moveBack count =>
    have hafter := (aside_moveTo (s.position - count)).heard s notices
    have hback : (s.heard notices).moveBack count = (s.moveBack count).heard notices := hafter
    simp only [respond, hback]
    exact ⟨.same _, notices, rfl⟩
  | evaluate =>
    simp only [respond, evaluate_heard]
    exact ⟨.same _, notices, rfl⟩
  | tick now => exact ⟨.same _, notices, rfl⟩
  | react =>
    obtain ⟨notices', hreact⟩ := s.react_heard notices
    simp only [respond, hreact]
    exact ⟨.same _, notices', rfl⟩
  | restart =>
    simp only [respond, restart_heard]
    exact ⟨.same _, notices, rfl⟩
  | subscribe => exact ⟨.same _, some [], rfl⟩
  | unsubscribe => exact ⟨.same _, none, rfl⟩
  | drain => exact ⟨.notices _ _, _, rfl⟩

end Session

/-! ## Engines -/

/-- A session with the memory of the context that it asks. -/
structure Engine where
  session : Session
  context : Context

inductive Request where
  | command (command : Command)
  | query (query : Query)

inductive Response where
  | answer (answer : Answer)
  | reply (reply : Reply)

/-- The responses are the same, or both are what a subscriber has not fetched yet. -/
inductive Response.Alike : Response → Response → Prop where
  | answer {a a' : Answer} : a.Alike a' → Alike (.answer a) (.answer a')
  | reply (r : Reply) : Alike (.reply r) (.reply r)

namespace Engine

def tree (e : Engine) : Tree := e.session.program.tree

/-- The engine was just built. Its context has been asked for the conflicts. -/
structure Begins (t : Tree) (config : Config) (e : Engine) : Prop where
  session : Session.start t config = .ok e.session
  context : (Context.reply t .conflicts).run (.fresh t.nodes.size) =
    some (.conflicts e.session.program.conflicts, e.context)

/-- The engine responds to a request. What a command asks the context is left open; whatever it is,
the context remembers it. -/
inductive Serves (e : Engine) : Request → Response → Engine → Prop where
  | command (command : Command) {asked : List Query} {replies : List Reply} {context : Context} :
      (Context.replies e.tree asked).run e.context = some (replies, context) →
        Serves e (.command command) (.answer (e.session.respond command).1)
          ⟨(e.session.respond command).2, context⟩
  | query (query : Query) {reply : Reply} {context : Context} :
      (Context.reply e.tree query).run e.context = some (reply, context) →
        Serves e (.query query) (.reply reply) ⟨e.session, context⟩

/-- The engine responds to one request after the other. -/
inductive ServesAll : Engine → List Request → List Response → Engine → Prop where
  | nil (e : Engine) : ServesAll e [] [] e
  | cons {e e' e'' : Engine} {request : Request} {response : Response} {requests : List Request}
      {responses : List Response} : e.Serves request response e' →
        e'.ServesAll requests responses e'' →
          ServesAll e (request :: requests) (response :: responses) e''

/-- What holds between two requests: the context remembers nothing but what the analysis of the tree
says, which is what the program runs with. -/
structure Ready (t : Tree) (config : Config) (e : Engine) : Prop where
  host : e.session.Host
  program : e.session.program = .ofTree t config
  context : e.context.Sound t (.ofTree t)

variable {d : Draft} {root : NodeId} {t : Tree} {config : Config} {e e' f f' : Engine}
  {request : Request} {requests : List Request} {response response' : Response}
  {responses responses' : List Response}

theorem Ready.tree_eq (h : e.Ready t config) : e.tree = t := by
  rw [tree, h.program]
  exact Analysis.tree_ofTree t

theorem Begins.ready (ht : d.finish root = .ok t) (h : e.Begins t config) : e.Ready t config := by
  refine ⟨Session.host_start ht h.session, ?_, ?_⟩
  · obtain ⟨-, -, hs⟩ := Session.start_cases h.session
    rw [hs]
    rfl
  · obtain ⟨context, hrun, hsound⟩ := Context.settles_reply t .conflicts _ Context.sound_fresh
    rw [h.context, Option.some.injEq, Prod.mk.injEq] at hrun
    rw [hrun.2]
    exact hsound

/-- A program that may run can be built. -/
theorem exists_begins {s : Session} (hs : Session.start t config = .ok s) :
    ∃ context, Begins t config ⟨s, context⟩ := by
  obtain ⟨context, hrun, -⟩ := Context.settles_reply t .conflicts (.fresh t.nodes.size)
    Context.sound_fresh
  refine ⟨context, hs, ?_⟩
  obtain ⟨-, -, rfl⟩ := Session.start_cases hs
  exact hrun

theorem Ready.served (h : e.Ready t config) (hs : e.Serves request response e') :
    e'.Ready t config := by
  cases hs with
  | @command command asked replies context hrun =>
    rw [h.tree_eq] at hrun
    obtain ⟨context', hrun', hsound⟩ := Context.settles_replies t asked _ h.context
    rw [hrun] at hrun'
    cases hrun'
    exact ⟨h.host.respond command, (h.host.respond_program command).trans h.program, hsound⟩
  | @query query reply context hrun =>
    rw [h.tree_eq] at hrun
    obtain ⟨context', hrun', hsound⟩ := Context.settles_reply t query _ h.context
    rw [hrun] at hrun'
    cases hrun'
    exact ⟨h.host, h.program, hsound⟩

theorem Ready.servedAll (h : e.Ready t config) (hs : e.ServesAll requests responses e') :
    e'.Ready t config := by
  induction hs with
  | nil => exact h
  | cons hfirst _ ih => exact ih (h.served hfirst)

/-- Every request gets a response. -/
theorem Ready.serves (h : e.Ready t config) (request : Request) :
    ∃ response e', e.Serves request response e' := by
  cases request with
  | command command =>
    have hnone : (Context.replies e.tree []).run e.context = some ([], e.context) := rfl
    exact ⟨_, _, .command command hnone⟩
  | query query =>
    obtain ⟨context, hrun, -⟩ := Context.settles_reply t query _ h.context
    rw [← h.tree_eq] at hrun
    exact ⟨_, _, .query query hrun⟩

theorem Ready.servesAll (h : e.Ready t config) (requests : List Request) :
    ∃ responses e', e.ServesAll requests responses e' := by
  induction requests generalizing e with
  | nil => exact ⟨_, _, .nil e⟩
  | cons request rest ih =>
    obtain ⟨response, e', hfirst⟩ := h.serves request
    obtain ⟨responses, e'', hrest⟩ := ih (h.served hfirst)
    exact ⟨_, _, .cons hfirst hrest⟩

/-- The reply to a query is what the analysis says, whatever the context remembers. -/
theorem Ready.reply_eq (h : e.Ready t config) {query : Query} {reply : Reply} {context : Context}
    (hrun : (Context.reply e.tree query).run e.context = some (reply, context)) :
    reply = (Analysis.ofTree t).answer query := by
  rw [h.tree_eq] at hrun
  obtain ⟨context', hrun', -⟩ := Context.settles_reply t query _ h.context
  rw [hrun] at hrun'
  cases hrun'
  rfl

/-- Engines whose sessions differ in the subscriber only give responses that are alike. -/
theorem Ready.serves_alike (he : e.Ready t config) (hf : f.Ready t config)
    {notices : Option (List Notice)} (hsession : f.session = e.session.heard notices)
    (hs : e.Serves request response e') (hs' : f.Serves request response' f') :
    response.Alike response' ∧ ∃ notices', f'.session = e'.session.heard notices' := by
  cases hs with
  | command command hrun =>
    cases hs' with
    | command command hrun' =>
      obtain ⟨halike, hafter⟩ := e.session.respond_heard notices command
      rw [← hsession] at halike hafter
      exact ⟨.answer halike, hafter⟩
  | query query hrun =>
    cases hs' with
    | query query hrun' =>
      obtain rfl := he.reply_eq hrun
      obtain rfl := hf.reply_eq hrun'
      exact ⟨.reply _, notices, hsession⟩

theorem Ready.servesAll_alike (he : e.Ready t config) (hf : f.Ready t config)
    {notices : Option (List Notice)} (hsession : f.session = e.session.heard notices)
    (hs : e.ServesAll requests responses e') (hs' : f.ServesAll requests responses' f') :
    List.Forall₂ Response.Alike responses responses' ∧ f'.session.view = e'.session.view := by
  induction hs generalizing f responses' notices with
  | nil =>
    cases hs'
    rw [hsession]
    exact ⟨.nil, rfl⟩
  | cons hfirst _ ih =>
    cases hs' with
    | cons hfirst' hrest' =>
      obtain ⟨halike, notices', hnow⟩ := he.serves_alike hf hsession hfirst hfirst'
      obtain ⟨hall, hview⟩ := ih (he.served hfirst) (hf.served hfirst') hnow hrest'
      exact ⟨.cons halike hall, hview⟩

/-- Engines with the same session give the same responses, whatever their contexts remember. -/
theorem Ready.serves_same (he : e.Ready t config) (hf : f.Ready t config)
    (hsession : f.session = e.session) (hs : e.Serves request response e')
    (hs' : f.Serves request response' f') : response' = response ∧ f'.session = e'.session := by
  cases hs with
  | command command hrun =>
    cases hs' with
    | command command hrun' => exact ⟨by rw [hsession], by rw [hsession]⟩
  | query query hrun =>
    cases hs' with
    | query query hrun' => exact ⟨by rw [he.reply_eq hrun, hf.reply_eq hrun'], hsession⟩

theorem Ready.servesAll_same (he : e.Ready t config) (hf : f.Ready t config)
    (hsession : f.session = e.session) (hs : e.ServesAll requests responses e')
    (hs' : f.ServesAll requests responses' f') :
    responses' = responses ∧ f'.session = e'.session := by
  induction hs generalizing f responses' with
  | nil =>
    cases hs'
    exact ⟨rfl, hsession⟩
  | cons hfirst _ ih =>
    cases hs' with
    | cons hfirst' hrest' =>
      obtain ⟨rfl, hnow⟩ := he.serves_same hf hsession hfirst hfirst'
      obtain ⟨rfl, hafter⟩ := ih (he.served hfirst) (hf.served hfirst') hnow hrest'
      exact ⟨rfl, hafter⟩

/-- A restart gives what a new engine gives for its first evaluation, and leads to the session that
this leads to, but for the subscriber. -/
theorem Ready.restarted (h : e.Ready t config) (hf : f.Begins t config) :
    e.session.restart = (f.session.evaluate.1, f.session.evaluate.2.heard e.session.notices) := by
  have hrenewed : e.session.renewed = f.session.heard e.session.notices := by
    obtain ⟨-, -, hs⟩ := Session.start_cases hf.session
    rw [hs, Session.renewed, h.program]
    rfl
  rw [← Session.evaluate_heard, ← hrenewed]
  rfl

theorem Begins.evaluated (hf : f.Begins t config) :
    f.session.evaluate.2.history = #[] ∧ f.session.evaluate.2.pending = [] := by
  obtain ⟨hhistory, hpending, -⟩ := Session.aside_evaluate.kept f.session
  obtain ⟨-, -, hs⟩ := Session.start_cases hf.session
  rw [hhistory, hpending, hs]
  exact ⟨rfl, rfl⟩

/-- A restart is a fresh start. Whatever was asked before, it gives the value that a new engine gives
for its first evaluation, with the same log, passes and streams, no history and no pending changes;
only the subscriber is kept. The host sees the same from then on: all later requests are served, with
the responses of the new engine, whoever listens to that one; a subscriber of both is told the same
too. -/
theorem restart_renews (ht : d.finish root = .ok t) (he : e.Begins t config)
    {before : List Request} {answered : List Response} {now restarted : Engine}
    (hbefore : e.ServesAll before answered now)
    (hrestart : now.Serves (.command .restart) response restarted)
    (hf : f.Begins t config) (hfirst : f.Serves (.command .evaluate) response' f') :
    response = response' ∧
      restarted.session = f'.session.heard now.session.notices ∧
      restarted.session.history = #[] ∧ restarted.session.pending = [] ∧
      restarted.session.view = f'.session.view ∧
      (∀ later, ∃ responses after, restarted.ServesAll later responses after) ∧
      ∀ (notices : Option (List Notice)) (later : List Request) (responses responses' : List Response)
        (after after' : Engine), restarted.ServesAll later responses after →
        (Engine.mk (f'.session.heard notices) f'.context).ServesAll later responses' after' →
        List.Forall₂ Response.Alike responses responses' ∧
          after'.session.view = after.session.view ∧
          (notices = now.session.notices →
            responses' = responses ∧ after'.session = after.session) := by
  have hnow := (he.ready ht).servedAll hbefore
  have hready := hnow.served hrestart
  have hready' := (hf.ready ht).served hfirst
  have hrenewed := hnow.restarted hf
  cases hrestart with
  | command _ hrun =>
    cases hfirst with
    | command _ hrun' =>
      have hvalue : (now.session.respond .restart).1 = (f.session.respond .evaluate).1 := by
        rw [Session.respond, Session.respond, hrenewed]
      have hsession : (now.session.respond .restart).2 =
          (f.session.respond .evaluate).2.heard now.session.notices := by
        rw [Session.respond, Session.respond, hrenewed]
      refine ⟨congrArg _ hvalue, hsession, ?_, ?_, ?_, hready.servesAll, ?_⟩
      · rw [hsession]
        exact hf.evaluated.1
      · rw [hsession]
        exact hf.evaluated.2
      · rw [hsession]
        rfl
      · intro notices later responses responses' after after' hs hs'
        have hheard : (Engine.mk ((f.session.respond .evaluate).2.heard notices) _).Ready t config :=
          ⟨hready'.host.told _ notices, hready'.program, hready'.context⟩
        have hmuted : (f.session.respond .evaluate).2.heard notices =
            (now.session.respond .restart).2.heard notices := by
          rw [hsession]
          rfl
        have halike := hready.servesAll_alike hheard hmuted hs hs'
        refine ⟨halike.1, halike.2, ?_⟩
        rintro rfl
        exact hready.servesAll_same hheard hsession.symm hs hs'

/-- After a reaction and with the cursor in the middle, a restart. -/
theorem restart_renews_clock : ∃ s context answered now response restarted f',
    Session.clockTree.edit.finish ⟨3⟩ = .ok Session.clockTree ∧
    (Engine.mk s context).Begins Session.clockTree .default ∧
    (Engine.mk s context).ServesAll [.command .evaluate, .command (.tick 40), .command .react,
      .query (.typeOf ⟨1⟩), .command (.moveBack 5)] answered now ∧
    now.Serves (.command .restart) response restarted ∧
    (Engine.mk s context).Serves (.command .evaluate) response f' ∧
    restarted.session.history = #[] ∧ restarted.session.view = f'.session.view := by
  obtain ⟨context, hbegins⟩ := exists_begins Session.start_clock
  have hready := hbegins.ready Session.finish_clock
  obtain ⟨answered, now, hbefore⟩ := hready.servesAll [.command .evaluate, .command (.tick 40),
    .command .react, .query (.typeOf ⟨1⟩), .command (.moveBack 5)]
  obtain ⟨response, restarted, hrestart⟩ := (hready.servedAll hbefore).serves (.command .restart)
  obtain ⟨response', f', hfirst⟩ := hready.serves (.command .evaluate)
  have h := restart_renews Session.finish_clock hbegins hbefore hrestart hbegins hfirst
  obtain rfl := h.1
  exact ⟨_, context, answered, now, response, restarted, f', Session.finish_clock, hbegins, hbefore,
    hrestart, hfirst, h.2.2.1, h.2.2.2.2.1⟩

end Engine
end ReactiveLang
