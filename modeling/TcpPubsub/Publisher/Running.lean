import TcpPubsub.Publisher.Trace

/-!
# The acceptor, `is_running_` and `getPort`

`start` sets `is_running_` only once the acceptor listens, and `cancel` closes the acceptor
before it clears `is_running_`.  Over every interleaving the flag and the acceptor therefore
disagree only inside that window of a `cancel` call, and no `async_accept` is outstanding on
an acceptor that does not listen.  `getPort` tests an `error_code` that it never passes to
`local_endpoint()`, so inside the window it throws where it was meant to return `0`.  Once the
acceptor is closed, the accept loop can push at most the one session whose connection it had
already accepted.
-/

namespace TcpPubsub.Publisher

open TransientLocal

variable (setting : PublisherTransientLocalSetting)

/-- A `cancel` call that has run `is_running_ = false`. -/
def CancelPc.stopped : CancelPc → Bool
  | .snapshot | .cancelling _ | .done => true
  | .idle | .stop => false

/-- How `is_running_`, the acceptor, the accept loop and the calls of `cancel` stand to each
other. -/
structure RunInv (p : PublisherImpl) : Prop where
  /-- While the flag is set the acceptor listens, unless a `cancel` has closed it and not yet
  cleared the flag. -/
  running : p.isRunning = true → p.acceptor = .listening ∨ ∃ call, p.cancels call = .stop
  /-- A listening acceptor means a successful `start` and no `cancel` begun. -/
  listening : p.acceptor = .listening → p.isRunning = true ∧ ∀ call, p.cancels call = .idle
  cancelled_closed : ∀ call, p.cancels call ≠ .idle → p.acceptor = .closed
  stopped : ∀ call, (p.cancels call).stopped → p.isRunning = false
  waiting_listening : ∀ session, p.accept = .waiting session → p.acceptor = .listening

variable {p q : PublisherImpl}

/-- What `start` leaves of the flag, the acceptor and the accept loop, for every outcome. -/
theorem start_fresh_running (outcome : StartOutcome) :
    (start outcome fresh).publisher.cancels = (fun _ => .idle) ∧
      ((start outcome fresh).publisher.isRunning = true ∧
          (start outcome fresh).publisher.acceptor = .listening ∨
        (start outcome fresh).publisher.isRunning = false ∧
          (start outcome fresh).publisher.acceptor ≠ .listening ∧
          (start outcome fresh).publisher.accept = .idle) := by
  obtain ⟨_ | _, _ | _, _ | _, _ | _, _ | _⟩ := outcome
  case mk.true.true.true.true.true => exact ⟨rfl, .inl ⟨rfl, rfl⟩⟩
  all_goals exact ⟨rfl, .inr ⟨rfl, by decide, rfl⟩⟩

theorem runInv_start (outcome : StartOutcome) : RunInv (start outcome fresh).publisher := by
  obtain ⟨hcancels, ⟨hrunning, hlistening⟩ | ⟨hrunning, hnot, haccept⟩⟩ :=
    start_fresh_running outcome
  · exact ⟨fun _ => .inl hlistening, fun _ => ⟨hrunning, by simp [hcancels]⟩,
      fun call h => absurd (by simp [hcancels]) h,
      fun call h => by simp [hcancels, CancelPc.stopped] at h, fun _ _ => hlistening⟩
  · exact ⟨fun h => by simp [hrunning] at h, fun h => absurd h hnot,
      fun call h => absurd (by simp [hcancels]) h, fun _ _ => hrunning, by simp [haccept]⟩

/-- A step that leaves the flag, the acceptor and the calls of `cancel` alone, and issues no
`async_accept` on an acceptor that does not listen, keeps the invariant. -/
theorem RunInv.frame (hinv : RunInv p) (hrunning : q.isRunning = p.isRunning)
    (hacceptor : q.acceptor = p.acceptor) (hcancels : q.cancels = p.cancels)
    (hwaiting : ∀ session, q.accept = .waiting session → p.acceptor = .listening) : RunInv q := by
  refine ⟨fun h => ?_, fun h => ?_, fun call h => ?_, fun call h => ?_,
    fun session h => hacceptor.trans (hwaiting session h)⟩
  · rw [hacceptor, hcancels]; exact hinv.running (hrunning ▸ h)
  · rw [hrunning, hcancels]; exact hinv.listening (hacceptor ▸ h)
  · rw [hacceptor]; exact hinv.cancelled_closed call (hcancels ▸ h)
  · rw [hrunning]; exact hinv.stopped call (hcancels ▸ h)

/-- Once the flag is cleared and the acceptor closed with no accept outstanding, the invariant
holds whatever the calls of `cancel` are doing. -/
theorem runInv_of_stopped (hrunning : q.isRunning = false) (hclosed : q.acceptor = .closed)
    (haccept : ∀ session, q.accept ≠ .waiting session) : RunInv q :=
  ⟨fun h => by simp [hrunning] at h, fun h => by simp [hclosed] at h, fun _ _ => hclosed,
    fun _ _ => hrunning, fun session h => absurd h (haccept session)⟩

theorem RunInv.not_waiting_of_closed (hinv : RunInv p) (hclosed : p.acceptor = .closed)
    (session : Session) : p.accept ≠ .waiting session := fun h => by
  simpa [hclosed] using hinv.waiting_listening session h

/-- A step of a `cancel` call past `is_running_ = false`: it changes only that call's position. -/
theorem RunInv.of_stopped_call (hinv : RunInv p) (call : CancelCall)
    (hstopped : (p.cancels call).stopped) (hrunning : q.isRunning = p.isRunning)
    (hacceptor : q.acceptor = p.acceptor) (haccept : q.accept = p.accept) : RunInv q := by
  have hclosed := hinv.cancelled_closed call fun h => by simp [h, CancelPc.stopped] at hstopped
  rw [← hacceptor] at hclosed
  refine runInv_of_stopped (hrunning ▸ hinv.stopped call hstopped) hclosed fun session => ?_
  rw [haccept]
  exact hinv.not_waiting_of_closed (hacceptor ▸ hclosed) session

theorem RunInv.cancelClose (hinv : RunInv p) {call : CancelCall}
    (hstep : cancelClose call p = some q) : RunInv q := by
  obtain ⟨hidle, rfl⟩ := cancelClose_eq_some hstep
  refine ⟨fun _ => .inr ⟨call, by simp⟩, fun h => by simp at h, fun _ _ => rfl,
    fun other h => ?_, fun session h => ?_⟩
  · by_cases hother : other = call
    · subst hother
      simp [CancelPc.stopped] at h
    · simp only [Function.update_noteq hother] at h
      exact hinv.stopped other h
  · revert h
    cases p.accept <;> simp

theorem RunInv.cancelStop (hinv : RunInv p) {call : CancelCall}
    (hstep : cancelStop call p = some q) : RunInv q := by
  obtain ⟨hpc, rfl⟩ := cancelStop_eq_some hstep
  have hclosed := hinv.cancelled_closed call (by simp [hpc])
  exact runInv_of_stopped rfl hclosed (hinv.not_waiting_of_closed hclosed)

theorem RunInv.step (hinv : RunInv p) {action : Action}
    (hstep : step setting p action = some q) : RunInv q := by
  cases action with
  | acceptComplete ok =>
      obtain ⟨_, _, rfl⟩ := acceptComplete_eq_some hstep
      exact hinv.frame rfl rfl rfl (by simp)
  | acceptHandler =>
      obtain ⟨_, ok, _, rfl⟩ := acceptHandler_eq_some hstep
      cases ok <;> exact hinv.frame rfl rfl rfl (by simp)
  | acceptAdd =>
      obtain ⟨_, _, rfl⟩ := acceptAdd_eq_some hstep
      exact hinv.frame rfl rfl rfl (by simp)
  | acceptRearm =>
      obtain ⟨_, _, rfl⟩ := acceptRearm_eq_some hstep
      refine hinv.frame rfl rfl rfl fun session h => ?_
      by_contra hnot
      simp [acceptClient, hnot] at h
  | close session =>
      obtain ⟨-, -, rfl⟩ := publisherSessionClosedHandler_eq_some hstep
      exact hinv.frame rfl rfl rfl hinv.waiting_listening
  | sendBegin call =>
      obtain ⟨-, rfl⟩ := sendBegin_eq_some setting hstep
      exact hinv.frame rfl rfl rfl hinv.waiting_listening
  | sendCheckEmpty call =>
      obtain ⟨-, rfl⟩ := sendCheckEmpty_eq_some hstep
      exact hinv.frame rfl rfl rfl hinv.waiting_listening
  | sendFanOut call =>
      obtain ⟨-, rfl⟩ := sendFanOut_eq_some setting hstep
      exact hinv.frame rfl rfl rfl hinv.waiting_listening
  | sendAppend call nowTp =>
      obtain ⟨-, -, rfl⟩ := sendAppend_eq_some setting hstep
      exact hinv.frame rfl rfl rfl hinv.waiting_listening
  | replaySnapshot session nowTp =>
      obtain ⟨-, -, -, -, ⟨-, rfl⟩ | ⟨-, rfl⟩⟩ := replaySnapshot_eq_some setting hstep <;>
        exact hinv.frame rfl rfl rfl hinv.waiting_listening
  | replayPush session =>
      obtain ⟨_, -, rfl⟩ := replayPush_eq_some hstep
      exact hinv.frame rfl rfl rfl hinv.waiting_listening
  | cancelClose call => exact hinv.cancelClose hstep
  | cancelStop call => exact hinv.cancelStop hstep
  | cancelSnapshot call =>
      obtain ⟨hpc, rfl⟩ := cancelSnapshot_eq_some hstep
      exact hinv.of_stopped_call call (by simp [hpc, CancelPc.stopped]) rfl rfl rfl
  | cancelSession call =>
      obtain ⟨hpc, rfl⟩ | ⟨_, _, hpc, rfl⟩ := cancelSession_eq_some hstep <;>
        exact hinv.of_stopped_call call (by simp [hpc, CancelPc.stopped]) rfl rfl rfl

theorem Reachable.runInv (hreach : Reachable setting p) : RunInv p := by
  induction hreach with
  | init outcome => exact runInv_start outcome
  | step action _ hstep ih => exact ih.step setting hstep

/-! ### `getPort` -/

/-- The session whose connection the accept loop has accepted and not yet pushed. -/
def AcceptLoop.connected : AcceptLoop → Option Session
  | .completed session true | .started session => some session
  | _ => none

/-- What every state after `origin`, whose acceptor is closed, keeps: the acceptor stays
closed with no accept outstanding, and the only session still to be pushed is the one the
accept loop held at `origin`. -/
structure AfterClose (origin p : PublisherImpl) : Prop where
  closed : p.acceptor = .closed
  not_waiting : ∀ session, p.accept ≠ .waiting session
  connected : ∀ session, p.accept.connected = some session → origin.accept.connected = some session
  added : ∀ session, Event.add session ∈ p.trace →
    Event.add session ∈ origin.trace ∨ origin.accept.connected = some session

variable {origin : PublisherImpl}

theorem RunInv.afterClose_self (hinv : RunInv p) (hclosed : p.acceptor = .closed) :
    AfterClose p p :=
  ⟨hclosed, hinv.not_waiting_of_closed hclosed, fun _ => id, fun _ => .inl⟩

/-- A step keeps `AfterClose` if it keeps the acceptor closed with no accept outstanding, holds
no connection the loop did not hold before, and pushes only the connection it held. -/
theorem AfterClose.frame (hafter : AfterClose origin p) (events : List Event)
    (hclosed : q.acceptor = .closed) (hwaiting : ∀ session, q.accept ≠ .waiting session)
    (hconnected : ∀ session, q.accept.connected = some session →
      p.accept.connected = some session)
    (htrace : q.trace = p.trace ++ events)
    (hadd : ∀ session, Event.add session ∈ events → p.accept.connected = some session) :
    AfterClose origin q where
  closed := hclosed
  not_waiting := hwaiting
  connected session h := hafter.connected session (hconnected session h)
  added session h := by
    rcases List.mem_append.mp (htrace ▸ h) with hold | hnew
    · exact hafter.added session hold
    · exact .inr (hafter.connected session (hadd session hnew))

/-- The frame for a step that leaves the acceptor and the accept loop alone and pushes nothing. -/
theorem AfterClose.keep (hafter : AfterClose origin p) (events : List Event)
    (hacceptor : q.acceptor = p.acceptor) (haccept : q.accept = p.accept)
    (htrace : q.trace = p.trace ++ events) (hadd : ∀ session, Event.add session ∉ events) :
    AfterClose origin q :=
  hafter.frame events (hacceptor.trans hafter.closed) (haccept ▸ hafter.not_waiting)
    (fun _ => haccept ▸ id) htrace fun session h => absurd h (hadd session)

theorem AfterClose.step (hafter : AfterClose origin p) {action : Action}
    (hstep : step setting p action = some q) : AfterClose origin q := by
  cases action with
  | acceptComplete ok =>
      obtain ⟨session, haccept, -⟩ := acceptComplete_eq_some hstep
      exact absurd haccept (hafter.not_waiting session)
  | acceptHandler =>
      obtain ⟨session, ok, haccept, rfl⟩ := acceptHandler_eq_some hstep
      cases ok
      · exact hafter.frame [] hafter.closed (by simp) (by simp [AcceptLoop.connected]) (by simp)
          (by simp)
      · exact hafter.frame [.start session] hafter.closed (by simp)
          (by simp [AcceptLoop.connected, haccept]) rfl (by simp)
  | acceptAdd =>
      obtain ⟨session, haccept, rfl⟩ := acceptAdd_eq_some hstep
      exact hafter.frame [.add session] hafter.closed (by simp) (by simp [AcceptLoop.connected])
        rfl (by simp [AcceptLoop.connected, haccept])
  | acceptRearm =>
      obtain ⟨_, -, rfl⟩ := acceptRearm_eq_some hstep
      exact hafter.frame [] hafter.closed (by simp [acceptClient, hafter.closed])
        (by simp [acceptClient, hafter.closed, AcceptLoop.connected]) (by simp [acceptClient])
        (by simp)
  | close session =>
      obtain ⟨-, -, rfl⟩ := publisherSessionClosedHandler_eq_some hstep
      exact hafter.keep [.close session] rfl rfl rfl (by simp)
  | sendBegin call =>
      obtain ⟨-, rfl⟩ := sendBegin_eq_some setting hstep
      exact hafter.keep [] rfl rfl (by simp) (by simp)
  | sendCheckEmpty call =>
      obtain ⟨-, rfl⟩ := sendCheckEmpty_eq_some hstep
      exact hafter.keep [] rfl rfl (by simp) (by simp)
  | sendFanOut call =>
      obtain ⟨-, rfl⟩ := sendFanOut_eq_some setting hstep
      exact hafter.keep _ rfl rfl rfl (by simp)
  | sendAppend call nowTp =>
      obtain ⟨-, -, rfl⟩ := sendAppend_eq_some setting hstep
      exact hafter.keep _ rfl rfl rfl (by simp)
  | replaySnapshot session nowTp =>
      obtain ⟨-, -, -, -, ⟨-, rfl⟩ | ⟨-, rfl⟩⟩ := replaySnapshot_eq_some setting hstep
      · exact hafter.keep [] rfl rfl (by simp) (by simp)
      · exact hafter.keep _ rfl rfl rfl (by simp)
  | replayPush session =>
      obtain ⟨frames, -, rfl⟩ := replayPush_eq_some hstep
      by_cases hframes : frames = []
      · exact hafter.keep [] rfl rfl (by simp [hframes]) (by simp)
      · exact hafter.keep [.pushTransientBuffer session frames] rfl rfl (by simp [hframes])
          (by simp)
  | cancelClose call =>
      obtain ⟨-, rfl⟩ := cancelClose_eq_some hstep
      have hwaiting := hafter.not_waiting
      refine hafter.keep [] hafter.closed.symm ?_ (by simp) (by simp)
      cases haccept : p.accept <;> simp_all
  | cancelStop call =>
      obtain ⟨-, rfl⟩ := cancelStop_eq_some hstep
      exact hafter.keep _ rfl rfl rfl (by simp)
  | cancelSnapshot call =>
      obtain ⟨-, rfl⟩ := cancelSnapshot_eq_some hstep
      exact hafter.keep [] rfl rfl (by simp) (by simp)
  | cancelSession call =>
      obtain ⟨-, rfl⟩ | ⟨_, _, -, rfl⟩ := cancelSession_eq_some hstep
      · exact hafter.keep [] rfl rfl (by simp) (by simp)
      · exact hafter.keep _ rfl rfl rfl (by simp)

theorem AfterClose.run (hafter : AfterClose origin p) {actions : List Action}
    (hrun : run setting p actions = some q) : AfterClose origin q := by
  induction actions generalizing p with
  | nil =>
      simp only [TcpPubsub.Publisher.run, Option.some.injEq] at hrun
      exact hrun ▸ hafter
  | cons action actions ih =>
      obtain ⟨next, hstep, hrest⟩ := Option.bind_eq_some.mp hrun
      exact ih (hafter.step setting hstep) hrest

/-- Once a `cancel` call has closed the acceptor, no accept is ever outstanding again, and every
later run pushes into `publisher_sessions_` at most one session more: the one whose connection
the accept loop had already accepted when the acceptor closed. -/
theorem cancel_pushes_at_most_connected (hreach : Reachable setting p) {call : CancelCall}
    (hcancel : p.cancels call ≠ .idle) {actions : List Action}
    (hrun : run setting p actions = some q) :
    (∀ session, q.accept ≠ .waiting session) ∧
      ∀ session, Event.add session ∈ q.trace →
        Event.add session ∈ p.trace ∨ p.accept.connected = some session := by
  have hinv := hreach.runInv
  have hafter := (hinv.afterClose_self (hinv.cancelled_closed call hcancel)).run setting hrun
  exact ⟨hafter.not_waiting, hafter.added⟩

/-- An accept that completed before `cancel` closed the acceptor: its handler still pushes
the session, and the loop then stops. -/
theorem cancel_pushes_at_most_connected_accepted :
    ∃ p q, Reachable ⟨0, 0⟩ p ∧ p.cancels 0 ≠ .idle ∧
      run ⟨0, 0⟩ p [.acceptHandler, .acceptAdd, .acceptRearm, .acceptHandler] = some q ∧
      (∀ session, q.accept ≠ .waiting session) ∧
      ∀ session, Event.add session ∈ q.trace →
        Event.add session ∈ p.trace ∨ p.accept.connected = some session := by
  obtain ⟨p, hp, -, hprop⟩ := reachable_of_run ⟨0, 0⟩ [.acceptComplete true, .cancelClose 0]
    (fun p => decide (p.cancels 0 ≠ .idle) &&
      (run ⟨0, 0⟩ p [.acceptHandler, .acceptAdd, .acceptRearm, .acceptHandler]).isSome)
    (.init ⟨true, true, true, true, true⟩) (by decide)
  simp only [Bool.and_eq_true, decide_eq_true_eq] at hprop
  obtain ⟨q, hq⟩ := Option.isSome_iff_exists.mp hprop.2
  exact ⟨p, q, hp, hprop.1, hq, cancel_pushes_at_most_connected ⟨0, 0⟩ hp hprop.1 hq⟩

end TcpPubsub.Publisher
