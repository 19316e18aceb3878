import TcpPubsub.TransientLocal

/-!
# The publisher as a set of threads

`Publisher_Impl` is shared by the user's threads, which call `send` and `cancel`, and by the
reactor's threads, which run the accept handler and the sessions' close and replay callbacks.
Each critical section under `publisher_sessions_mutex_` or `transient_local_mtx_` is one atomic
step, and so is each other read or write of shared state; between steps the threads
interleave freely.  The state holds every thread's position and a trace of what the publisher
did, in order.
-/

namespace TcpPubsub.Publisher

open TransientLocal

/-- A `PublisherSession`, numbered in creation order. -/
abbrev Session := ℕ

/-- A call of `send`; its frame is the pool buffer this call filled. -/
abbrev SendCall := ℕ

/-- A call of `cancel`. -/
abbrev CancelCall := ℕ

inductive AcceptorState
  | closed
  | opened
  | bound
  | listening
  deriving DecidableEq, Repr

/-- The chained accept of `acceptClient` and of its completion handler. -/
inductive AcceptLoop
  /-- No accept outstanding: the loop has ended, or never began. -/
  | idle
  /-- `async_accept` outstanding for a new session. -/
  | waiting (session : Session)
  /-- The accept finished; its handler is queued with this outcome. -/
  | completed (session : Session) (ok : Bool)
  /-- The handler has run `session->start()`. -/
  | started (session : Session)
  /-- The handler has added the session; `acceptClient()` comes next. -/
  | added (session : Session)
  deriving DecidableEq, Repr

/-- Where a call of `send` is. -/
inductive SendPc
  | idle
  /-- Running and `buffer_max_count_ == 0`: the emptiness check under the sessions lock. -/
  | checkEmpty
  /-- The frame is prepared: the fan-out under the sessions lock. -/
  | fanOut
  /-- The fan-out is done: the append under the transient-local lock. -/
  | append
  | done (result : Bool)
  deriving DecidableEq, Repr

/-- Where a call of `cancel` is. -/
inductive CancelPc
  | idle
  /-- The acceptor is closed: `is_running_ = false` next. -/
  | stop
  /-- The copy of the session list next. -/
  | snapshot
  /-- `session->cancel()` for each session of the copy left. -/
  | cancelling (sessions : List Session)
  | done
  deriving DecidableEq, Repr

/-- Where a session's replay handler is. -/
inductive ReplayPc
  | idle
  /-- The frames are copied out: `pushTransientBuffer` of their concatenation next. -/
  | pushing (frames : List SendCall)
  | done
  deriving DecidableEq, Repr

/-- What the publisher did, in order. -/
inductive Event
  /-- `session->start()`. -/
  | start (session : Session)
  /-- `publisher_sessions_.push_back(session)`. -/
  | add (session : Session)
  /-- The session's close callback ran. -/
  | close (session : Session)
  /-- The call's fan-out takes the sessions lock. -/
  | fanOut (call : SendCall)
  /-- `session->sendDataBuffer(buffer)` with the call's frame. -/
  | sendDataBuffer (session : Session) (call : SendCall)
  /-- The call's frame is stamped into `transient_local_buffers_`. -/
  | append (call : SendCall) (nowTp : ℤ)
  /-- The replay handler's critical section for a session. -/
  | snapshot (session : Session) (nowTp : ℤ)
  /-- `session->pushTransientBuffer` of the concatenation of `frames`. -/
  | pushTransientBuffer (session : Session) (frames : List SendCall)
  /-- `is_running_ = false`. -/
  | stop
  /-- `session->cancel()`. -/
  | cancelSession (session : Session)
  deriving DecidableEq, Repr

structure PublisherImpl where
  isRunning : Bool
  acceptor : AcceptorState
  accept : AcceptLoop
  nextSession : Session
  /-- `publisher_sessions_`. -/
  sessions : List Session
  transientLocalBuffers : List (TransientLocalElement SendCall)
  /-- The last reading of the steady clock. -/
  clock : ℤ
  sends : SendCall → SendPc
  cancels : CancelCall → CancelPc
  replays : Session → ReplayPc
  trace : List Event

/-- A publisher as its constructor leaves it. -/
def fresh : PublisherImpl where
  isRunning := false
  acceptor := .closed
  accept := .idle
  nextSession := 0
  sessions := []
  transientLocalBuffers := []
  clock := 0
  sends := fun _ => .idle
  cancels := fun _ => .idle
  replays := fun _ => .idle
  trace := []

variable (setting : PublisherTransientLocalSetting)

/-! ### Accepting sessions -/

/-- `acceptClient`: a new session and an `async_accept` for it; on an acceptor that no longer
listens the accept fails at once. -/
def acceptClient (p : PublisherImpl) : PublisherImpl :=
  { p with
    nextSession := p.nextSession + 1
    accept := if p.acceptor = .listening then .waiting p.nextSession
      else .completed p.nextSession false }

/-- The network completes the outstanding accept, with a connection or an error. -/
def acceptComplete (ok : Bool) (p : PublisherImpl) : Option PublisherImpl :=
  match p.accept with
  | .waiting session => some { p with accept := .completed session ok }
  | _ => none

theorem acceptComplete_eq_some {ok : Bool} {p q : PublisherImpl}
    (hstep : acceptComplete ok p = some q) :
    ∃ session, p.accept = .waiting session ∧ q = { p with accept := .completed session ok } := by
  unfold acceptComplete at hstep
  split at hstep
  · exact ⟨_, ‹_›, (Option.some.inj hstep).symm⟩
  · cases hstep

/-- The accept handler up to `session->start()`: an error ends the loop. -/
def acceptHandler (p : PublisherImpl) : Option PublisherImpl :=
  match p.accept with
  | .completed session true =>
      some { p with accept := .started session, trace := p.trace ++ [.start session] }
  | .completed _ false => some { p with accept := .idle }
  | _ => none

theorem acceptHandler_eq_some {p q : PublisherImpl} (hstep : acceptHandler p = some q) :
    ∃ session ok, p.accept = .completed session ok ∧
      q = if ok then { p with accept := .started session, trace := p.trace ++ [.start session] }
        else { p with accept := .idle } := by
  unfold acceptHandler at hstep
  split at hstep
  · exact ⟨_, true, ‹_›, (Option.some.inj hstep).symm⟩
  · exact ⟨_, false, ‹_›, (Option.some.inj hstep).symm⟩
  · cases hstep

/-- The accept handler's critical section: `push_back` of the session. -/
def acceptAdd (p : PublisherImpl) : Option PublisherImpl :=
  match p.accept with
  | .started session =>
      some { p with
        accept := .added session
        sessions := p.sessions ++ [session]
        trace := p.trace ++ [.add session] }
  | _ => none

theorem acceptAdd_eq_some {p q : PublisherImpl} (hstep : acceptAdd p = some q) :
    ∃ session, p.accept = .started session ∧
      q = { p with
        accept := .added session
        sessions := p.sessions ++ [session]
        trace := p.trace ++ [.add session] } := by
  unfold acceptAdd at hstep
  split at hstep
  · exact ⟨_, ‹_›, (Option.some.inj hstep).symm⟩
  · cases hstep

/-- The accept handler's last call: `me->acceptClient()`. -/
def acceptRearm (p : PublisherImpl) : Option PublisherImpl :=
  match p.accept with
  | .added _ => some (acceptClient p)
  | _ => none

theorem acceptRearm_eq_some {p q : PublisherImpl} (hstep : acceptRearm p = some q) :
    ∃ session, p.accept = .added session ∧ q = acceptClient p := by
  unfold acceptRearm at hstep
  split at hstep
  · exact ⟨_, ‹_›, (Option.some.inj hstep).symm⟩
  · cases hstep

/-- `publisher_session_closed_handler`, which a session fires at most once, after its
`start()`: erase the session if it is in the list, otherwise log an error. -/
def publisherSessionClosedHandler (session : Session) (p : PublisherImpl) : Option PublisherImpl :=
  if Event.start session ∈ p.trace ∧ Event.close session ∉ p.trace then
    some { p with
      sessions := p.sessions.erase session
      trace := p.trace ++ [.close session] }
  else none

theorem publisherSessionClosedHandler_eq_some {session : Session} {p q : PublisherImpl}
    (hstep : publisherSessionClosedHandler session p = some q) :
    Event.start session ∈ p.trace ∧ Event.close session ∉ p.trace ∧
      q = { p with
        sessions := p.sessions.erase session
        trace := p.trace ++ [.close session] } := by
  obtain ⟨⟨hstart, hclose⟩, hq⟩ := Option.ite_none_right_eq_some.mp hstep
  exact ⟨hstart, hclose, (Option.some.inj hq).symm⟩

/-! ### Sending -/

/-- `send` up to its first lock: the `is_running_` check, then the frame is prepared unless the
feature is off, where the emptiness check comes first. -/
def sendBegin (call : SendCall) (p : PublisherImpl) : Option PublisherImpl :=
  if p.sends call = .idle then
    some { p with
      sends := Function.update p.sends call
        (if !p.isRunning then .done false
          else if setting.bufferMaxCount = 0 then .checkEmpty else .fanOut) }
  else none

theorem sendBegin_eq_some {call : SendCall} {p q : PublisherImpl}
    (hstep : sendBegin setting call p = some q) :
    p.sends call = .idle ∧
      q = { p with
        sends := Function.update p.sends call
          (if !p.isRunning then .done false
            else if setting.bufferMaxCount = 0 then .checkEmpty else .fanOut) } := by
  obtain ⟨hpc, hq⟩ := Option.ite_none_right_eq_some.mp hstep
  exact ⟨hpc, (Option.some.inj hq).symm⟩

/-- With the feature off: return `true` without a frame when there is no session. -/
def sendCheckEmpty (call : SendCall) (p : PublisherImpl) : Option PublisherImpl :=
  if p.sends call = .checkEmpty then
    some { p with
      sends := Function.update p.sends call (if p.sessions.isEmpty then .done true else .fanOut) }
  else none

theorem sendCheckEmpty_eq_some {call : SendCall} {p q : PublisherImpl}
    (hstep : sendCheckEmpty call p = some q) :
    p.sends call = .checkEmpty ∧
      q = { p with
        sends := Function.update p.sends call
          (if p.sessions.isEmpty then .done true else .fanOut) } := by
  obtain ⟨hpc, hq⟩ := Option.ite_none_right_eq_some.mp hstep
  exact ⟨hpc, (Option.some.inj hq).symm⟩

/-- The fan-out: `sendDataBuffer` to every session in the list, under the sessions lock. -/
def sendFanOut (call : SendCall) (p : PublisherImpl) : Option PublisherImpl :=
  if p.sends call = .fanOut then
    some { p with
      sends := Function.update p.sends call
        (if 0 < setting.bufferMaxCount then .append else .done true)
      trace := p.trace ++ .fanOut call :: p.sessions.map (.sendDataBuffer · call) }
  else none

theorem sendFanOut_eq_some {call : SendCall} {p q : PublisherImpl}
    (hstep : sendFanOut setting call p = some q) :
    p.sends call = .fanOut ∧
      q = { p with
        sends := Function.update p.sends call
          (if 0 < setting.bufferMaxCount then .append else .done true)
        trace := p.trace ++ .fanOut call :: p.sessions.map (.sendDataBuffer · call) } := by
  obtain ⟨hpc, hq⟩ := Option.ite_none_right_eq_some.mp hstep
  exact ⟨hpc, (Option.some.inj hq).symm⟩

/-- The append under the transient-local lock, with the clock read inside it. -/
def sendAppend (call : SendCall) (nowTp : ℤ) (p : PublisherImpl) : Option PublisherImpl :=
  if p.sends call = .append ∧ p.clock ≤ nowTp then
    some { p with
      sends := Function.update p.sends call (.done true)
      clock := nowTp
      transientLocalBuffers :=
        transientLocalStep setting p.transientLocalBuffers (.send call nowTp)
      trace := p.trace ++ [.append call nowTp] }
  else none

theorem sendAppend_eq_some {call : SendCall} {nowTp : ℤ} {p q : PublisherImpl}
    (hstep : sendAppend setting call nowTp p = some q) :
    p.sends call = .append ∧ p.clock ≤ nowTp ∧
      q = { p with
        sends := Function.update p.sends call (.done true)
        clock := nowTp
        transientLocalBuffers :=
          transientLocalStep setting p.transientLocalBuffers (.send call nowTp)
        trace := p.trace ++ [.append call nowTp] } := by
  obtain ⟨⟨hpc, hclock⟩, hq⟩ := Option.ite_none_right_eq_some.mp hstep
  exact ⟨hpc, hclock, (Option.some.inj hq).symm⟩

/-! ### Replaying -/

/-- The replay handler's critical section, once the session has finished its handshake: purge,
then copy the frames out.  With the feature off it returns at once. -/
def replaySnapshot (session : Session) (nowTp : ℤ) (p : PublisherImpl) : Option PublisherImpl :=
  if p.replays session = .idle ∧ Event.start session ∈ p.trace ∧
      Event.close session ∉ p.trace ∧ p.clock ≤ nowTp then
    if setting.bufferMaxCount = 0 then
      some { p with replays := Function.update p.replays session .done }
    else
      let buffers := purgeExpiredTransientLocalBuffers setting p.transientLocalBuffers nowTp
      some { p with
        replays := Function.update p.replays session
          (.pushing (buffers.map TransientLocalElement.buffer))
        clock := nowTp
        transientLocalBuffers := buffers
        trace := p.trace ++ [.snapshot session nowTp] }
  else none

theorem replaySnapshot_eq_some {session : Session} {nowTp : ℤ} {p q : PublisherImpl}
    (hstep : replaySnapshot setting session nowTp p = some q) :
    p.replays session = .idle ∧ Event.start session ∈ p.trace ∧
      Event.close session ∉ p.trace ∧ p.clock ≤ nowTp ∧
      (setting.bufferMaxCount = 0 ∧ q = { p with replays := Function.update p.replays session .done } ∨
        setting.bufferMaxCount ≠ 0 ∧
          q = { p with
            replays := Function.update p.replays session (.pushing
              ((purgeExpiredTransientLocalBuffers setting p.transientLocalBuffers nowTp).map
                TransientLocalElement.buffer))
            clock := nowTp
            transientLocalBuffers :=
              purgeExpiredTransientLocalBuffers setting p.transientLocalBuffers nowTp
            trace := p.trace ++ [.snapshot session nowTp] }) := by
  obtain ⟨⟨hpc, hstart, hclose, hclock⟩, hq⟩ := Option.ite_none_right_eq_some.mp hstep
  refine ⟨hpc, hstart, hclose, hclock, ?_⟩
  split at hq
  · exact .inl ⟨‹_›, (Option.some.inj hq).symm⟩
  · exact .inr ⟨‹_›, (Option.some.inj hq).symm⟩

/-- `pushTransientBuffer` of the concatenated frames, unless there are none.  Every frame has
its header, so a non-empty list concatenates to a non-empty buffer. -/
def replayPush (session : Session) (p : PublisherImpl) : Option PublisherImpl :=
  match p.replays session with
  | .pushing frames =>
      some { p with
        replays := Function.update p.replays session .done
        trace := if frames = [] then p.trace else p.trace ++ [.pushTransientBuffer session frames] }
  | _ => none

theorem replayPush_eq_some {session : Session} {p q : PublisherImpl}
    (hstep : replayPush session p = some q) :
    ∃ frames, p.replays session = .pushing frames ∧
      q = { p with
        replays := Function.update p.replays session .done
        trace := if frames = [] then p.trace
          else p.trace ++ [.pushTransientBuffer session frames] } := by
  unfold replayPush at hstep
  split at hstep
  · exact ⟨_, ‹_›, (Option.some.inj hstep).symm⟩
  · cases hstep

/-! ### Cancelling -/

/-- `acceptor_.close(); acceptor_.cancel()`: an outstanding accept fails with
`operation_canceled`; a handler already queued keeps its outcome. -/
def cancelClose (call : CancelCall) (p : PublisherImpl) : Option PublisherImpl :=
  if p.cancels call = .idle then
    some { p with
      cancels := Function.update p.cancels call .stop
      acceptor := .closed
      accept := match p.accept with
        | .waiting session => .completed session false
        | accept => accept }
  else none

theorem cancelClose_eq_some {call : CancelCall} {p q : PublisherImpl}
    (hstep : cancelClose call p = some q) :
    p.cancels call = .idle ∧
      q = { p with
        cancels := Function.update p.cancels call .stop
        acceptor := .closed
        accept := match p.accept with
          | .waiting session => .completed session false
          | accept => accept } := by
  obtain ⟨hpc, hq⟩ := Option.ite_none_right_eq_some.mp hstep
  exact ⟨hpc, (Option.some.inj hq).symm⟩

def cancelStop (call : CancelCall) (p : PublisherImpl) : Option PublisherImpl :=
  if p.cancels call = .stop then
    some { p with
      cancels := Function.update p.cancels call .snapshot
      isRunning := false
      trace := p.trace ++ [.stop] }
  else none

theorem cancelStop_eq_some {call : CancelCall} {p q : PublisherImpl}
    (hstep : cancelStop call p = some q) :
    p.cancels call = .stop ∧
      q = { p with
        cancels := Function.update p.cancels call .snapshot
        isRunning := false
        trace := p.trace ++ [.stop] } := by
  obtain ⟨hpc, hq⟩ := Option.ite_none_right_eq_some.mp hstep
  exact ⟨hpc, (Option.some.inj hq).symm⟩

/-- The copy of the session list under the sessions lock. -/
def cancelSnapshot (call : CancelCall) (p : PublisherImpl) : Option PublisherImpl :=
  if p.cancels call = .snapshot then
    some { p with cancels := Function.update p.cancels call (.cancelling p.sessions) }
  else none

theorem cancelSnapshot_eq_some {call : CancelCall} {p q : PublisherImpl}
    (hstep : cancelSnapshot call p = some q) :
    p.cancels call = .snapshot ∧
      q = { p with cancels := Function.update p.cancels call (.cancelling p.sessions) } := by
  obtain ⟨hpc, hq⟩ := Option.ite_none_right_eq_some.mp hstep
  exact ⟨hpc, (Option.some.inj hq).symm⟩

/-- `session->cancel()` for the next session of the copy. -/
def cancelSession (call : CancelCall) (p : PublisherImpl) : Option PublisherImpl :=
  match p.cancels call with
  | .cancelling [] => some { p with cancels := Function.update p.cancels call .done }
  | .cancelling (session :: rest) =>
      some { p with
        cancels := Function.update p.cancels call (.cancelling rest)
        trace := p.trace ++ [.cancelSession session] }
  | _ => none

theorem cancelSession_eq_some {call : CancelCall} {p q : PublisherImpl}
    (hstep : cancelSession call p = some q) :
    p.cancels call = .cancelling [] ∧ q = { p with cancels := Function.update p.cancels call .done } ∨
      ∃ session rest, p.cancels call = .cancelling (session :: rest) ∧
        q = { p with
          cancels := Function.update p.cancels call (.cancelling rest)
          trace := p.trace ++ [.cancelSession session] } := by
  unfold cancelSession at hstep
  split at hstep
  · exact .inl ⟨‹_›, (Option.some.inj hstep).symm⟩
  · exact .inr ⟨_, _, ‹_›, (Option.some.inj hstep).symm⟩
  · cases hstep

/-! ### Starting -/

/-- The steps of `start` that can fail, each logging its own error. -/
inductive StartStep
  | makeAddress
  | openAcceptor
  | setReuseAddress
  | bindAcceptor
  | listenAcceptor
  deriving DecidableEq, Repr

/-- The operating system's answer to each step of `start`: `true` for success. -/
structure StartOutcome where
  makeAddress : Bool
  openAcceptor : Bool
  setReuseAddress : Bool
  bindAcceptor : Bool
  listenAcceptor : Bool
  deriving DecidableEq, Repr

/-- What `start` returns, the step whose error it logs, and the publisher it leaves. -/
structure StartResult where
  returned : Bool
  logged : Option StartStep
  publisher : PublisherImpl

/-- `Publisher_Impl::start`.  Asio refuses to open an acceptor that is already open. -/
def start (outcome : StartOutcome) (p : PublisherImpl) : StartResult :=
  if !outcome.makeAddress then ⟨false, some .makeAddress, p⟩
  else if p.acceptor ≠ .closed ∨ !outcome.openAcceptor then ⟨false, some .openAcceptor, p⟩
  else
    let p := { p with acceptor := .opened }
    if !outcome.setReuseAddress then ⟨false, some .setReuseAddress, p⟩
    else if !outcome.bindAcceptor then ⟨false, some .bindAcceptor, p⟩
    else
      let p := { p with acceptor := .bound }
      if !outcome.listenAcceptor then ⟨false, some .listenAcceptor, p⟩
      else ⟨true, none, acceptClient { p with acceptor := .listening, isRunning := true }⟩

/-- A publisher's first `start`: whatever the outcome, nothing has happened yet, and only a
successful `start` leaves an accept outstanding, for session `0`. -/
theorem start_fresh (outcome : StartOutcome) :
    (start outcome fresh).publisher.sessions = [] ∧ (start outcome fresh).publisher.trace = [] ∧
      (start outcome fresh).publisher.transientLocalBuffers = [] ∧
      (start outcome fresh).publisher.clock = 0 ∧
      (∀ call, (start outcome fresh).publisher.sends call = .idle) ∧
      (∀ session, (start outcome fresh).publisher.replays session = .idle) ∧
      ((start outcome fresh).publisher.accept = .idle ∨
        (start outcome fresh).publisher.accept = .waiting 0 ∧
          (start outcome fresh).publisher.nextSession = 1) := by
  obtain ⟨_ | _, _ | _, _ | _, _ | _, _ | _⟩ := outcome
  -- the full success issues the first accept
  case mk.true.true.true.true.true =>
    exact ⟨rfl, rfl, rfl, rfl, fun _ => rfl, fun _ => rfl, .inr ⟨rfl, rfl⟩⟩
  -- a failing step changes the acceptor at most
  all_goals exact ⟨rfl, rfl, rfl, rfl, fun _ => rfl, fun _ => rfl, .inl rfl⟩

/-! ### Steps and runs -/

inductive Action
  | acceptComplete (ok : Bool)
  | acceptHandler
  | acceptAdd
  | acceptRearm
  | close (session : Session)
  | sendBegin (call : SendCall)
  | sendCheckEmpty (call : SendCall)
  | sendFanOut (call : SendCall)
  | sendAppend (call : SendCall) (nowTp : ℤ)
  | replaySnapshot (session : Session) (nowTp : ℤ)
  | replayPush (session : Session)
  | cancelClose (call : CancelCall)
  | cancelStop (call : CancelCall)
  | cancelSnapshot (call : CancelCall)
  | cancelSession (call : CancelCall)
  deriving DecidableEq, Repr

/-- One atomic step of one thread; `none` when that thread cannot take it. -/
def step (p : PublisherImpl) : Action → Option PublisherImpl
  | .acceptComplete ok => acceptComplete ok p
  | .acceptHandler => acceptHandler p
  | .acceptAdd => acceptAdd p
  | .acceptRearm => acceptRearm p
  | .close session => publisherSessionClosedHandler session p
  | .sendBegin call => sendBegin setting call p
  | .sendCheckEmpty call => sendCheckEmpty call p
  | .sendFanOut call => sendFanOut setting call p
  | .sendAppend call nowTp => sendAppend setting call nowTp p
  | .replaySnapshot session nowTp => replaySnapshot setting session nowTp p
  | .replayPush session => replayPush session p
  | .cancelClose call => cancelClose call p
  | .cancelStop call => cancelStop call p
  | .cancelSnapshot call => cancelSnapshot call p
  | .cancelSession call => cancelSession call p

def run (p : PublisherImpl) : List Action → Option PublisherImpl
  | [] => some p
  | action :: actions => (step setting p action).bind (run · actions)

/-- The states a publisher reaches: its constructor's `start`, then any interleaving of
steps. -/
inductive Reachable : PublisherImpl → Prop
  | init (outcome : StartOutcome) : Reachable (start outcome fresh).publisher
  | step {p q : PublisherImpl} (action : Action) :
      Reachable p → step setting p action = some q → Reachable q

theorem Reachable.run {p q : PublisherImpl} {actions : List Action}
    (hreach : Reachable setting p) (hrun : run setting p actions = some q) :
    Reachable setting q := by
  induction actions generalizing p with
  | nil =>
      simp only [TcpPubsub.Publisher.run, Option.some.injEq] at hrun
      exact hrun ▸ hreach
  | cons action actions ih =>
      simp only [TcpPubsub.Publisher.run] at hrun
      obtain ⟨next, hstep, hrest⟩ := Option.bind_eq_some.mp hrun
      exact ih (hreach.step action hstep) hrest

/-- A run from a reachable state whose end satisfies `prop`: the shape in which a concrete
interleaving is checked by evaluation. -/
theorem reachable_of_run {p : PublisherImpl} (actions : List Action)
    (prop : PublisherImpl → Bool) (hreach : Reachable setting p)
    (hrun : (run setting p actions).map prop = some true) :
    ∃ q, Reachable setting q ∧ run setting p actions = some q ∧ prop q = true := by
  cases hq : run setting p actions with
  | none => simp [hq] at hrun
  | some q =>
      rw [hq, Option.map_some', Option.some.injEq] at hrun
      exact ⟨q, hreach.run setting hq, rfl, hrun⟩

end TcpPubsub.Publisher
