import TcpPubsub.Publisher.Trace

/-!
# The session list

`publisher_sessions_` changes in two places, both under `publisher_sessions_mutex_`: the
accept handler's `push_back`, which runs after `session->start()`, and the close callback's
`erase`.  Over every interleaving the list holds, without duplicates, exactly the sessions that
were pushed and whose close callback has not run since.  A close callback that runs between
`start()` and `push_back` finds nothing to erase, and the session it closed is pushed for good.
-/

namespace TcpPubsub.Publisher

open TransientLocal

/-- The session an accept in flight will push, once its handler gets that far. -/
def AcceptLoop.pending : AcceptLoop → Option Session
  | .waiting session | .completed session _ | .started session => some session
  | .idle | .added _ => none

/-- What the accept loop and the close callbacks keep true of the session list. -/
structure SessionInv (p : PublisherImpl) : Prop where
  nodup : p.sessions.Nodup
  /-- The list holds the pushed sessions whose close callback has not run since. -/
  mem_iff : ∀ session, session ∈ p.sessions ↔
    Event.add session ∈ p.trace ∧ ¬ Before p.trace (.add session) (.close session)
  /-- A session closed before it was pushed stays in the list. -/
  stranded : ∀ session, Before p.trace (.close session) (.add session) → session ∈ p.sessions
  added_lt : ∀ session, Event.add session ∈ p.trace → session < p.nextSession
  pending_fresh : ∀ session, p.accept.pending = some session →
    Event.add session ∉ p.trace ∧ session < p.nextSession

variable {p q : PublisherImpl}

theorem sessionInv_start (outcome : StartOutcome) : SessionInv (start outcome fresh).publisher := by
  obtain ⟨hsessions, htrace, -, -, -, -, haccept⟩ := start_fresh outcome
  refine ⟨by simp [hsessions], fun session => by simp [hsessions, htrace, Before],
    fun session h => absurd h.mem_left (by simp [htrace]), by simp [htrace], ?_⟩
  rcases haccept with haccept | ⟨haccept, hnext⟩
  · simp [haccept, AcceptLoop.pending]
  · simp [haccept, AcceptLoop.pending, htrace, hnext]

/-- A step that leaves the list alone and records no push and no close keeps the invariant. -/
theorem SessionInv.frame (hinv : SessionInv p) (events : List Event)
    (hsessions : q.sessions = p.sessions) (hnext : q.nextSession = p.nextSession)
    (hpending : ∀ session, q.accept.pending = some session → p.accept.pending = some session)
    (htrace : q.trace = p.trace ++ events)
    (hevents : ∀ session, Event.add session ∉ events ∧ Event.close session ∉ events) :
    SessionInv q where
  nodup := hsessions ▸ hinv.nodup
  mem_iff session := by
    rw [hsessions, htrace, List.mem_append, before_append_of_not_mem (hevents session).2,
      hinv.mem_iff, or_iff_left (hevents session).1]
  stranded session h := by
    rw [htrace, before_append_of_not_mem (hevents session).1] at h
    exact hsessions ▸ hinv.stranded session h
  added_lt session hadd := by
    rw [htrace, List.mem_append, or_iff_left (hevents session).1] at hadd
    exact hnext ▸ hinv.added_lt session hadd
  pending_fresh session hsession := by
    have hfresh := hinv.pending_fresh session (hpending session hsession)
    rw [htrace, hnext, List.mem_append, or_iff_left (hevents session).1]
    exact hfresh

theorem SessionInv.acceptAdd (hinv : SessionInv p) (hstep : acceptAdd p = some q) :
    SessionInv q := by
  obtain ⟨added, haccept, rfl⟩ := acceptAdd_eq_some hstep
  obtain ⟨hfresh, hlt⟩ := hinv.pending_fresh added (by simp [haccept, AcceptLoop.pending])
  have hold : added ∉ p.sessions := fun h => hfresh ((hinv.mem_iff added).mp h).1
  refine ⟨List.Nodup.append hinv.nodup (List.nodup_singleton _) (by simpa using hold),
    fun session => ?_, fun session h => ?_, fun session h => ?_, by simp [AcceptLoop.pending]⟩
  · rw [before_append_of_not_mem (by simp)]
    by_cases hsession : session = added
    · subst hsession
      simp only [List.mem_append, List.mem_singleton, or_true, true_and, true_iff]
      exact fun h => hfresh h.mem_left
    · simp [hsession, hinv.mem_iff]
  · rw [before_append_iff] at h
    rcases h with h | ⟨-, h⟩ | h
    · exact List.mem_append_left _ (hinv.stranded session h)
    · simp only [List.mem_singleton, Event.add.injEq] at h
      simp [h]
    · simpa using h.mem_left
  · rcases List.mem_append.mp h with h | h
    · exact hinv.added_lt session h
    · simp only [List.mem_singleton, Event.add.injEq] at h
      exact h ▸ hlt

theorem SessionInv.acceptRearm (hinv : SessionInv p) (hstep : acceptRearm p = some q) :
    SessionInv q := by
  obtain ⟨_, -, rfl⟩ := acceptRearm_eq_some hstep
  refine ⟨hinv.nodup, hinv.mem_iff, hinv.stranded,
    fun session h => Nat.lt_succ_of_lt (hinv.added_lt session h), fun session h => ?_⟩
  have hpending : session = p.nextSession := by
    unfold acceptClient at h
    split at h <;> simpa [AcceptLoop.pending, eq_comm] using h
  subst hpending
  exact ⟨fun h => Nat.lt_irrefl _ (hinv.added_lt _ h), Nat.lt_succ_self _⟩

theorem SessionInv.close (hinv : SessionInv p) {closed : Session}
    (hstep : publisherSessionClosedHandler closed p = some q) : SessionInv q := by
  obtain ⟨-, hnew, rfl⟩ := publisherSessionClosedHandler_eq_some hstep
  refine ⟨hinv.nodup.erase closed, fun session => ?_, fun session h => ?_,
    fun session h => hinv.added_lt session (by simpa using h),
    fun session h => by simpa using hinv.pending_fresh session h⟩
  · rw [hinv.nodup.mem_erase_iff]
    by_cases hsession : session = closed
    · subst hsession
      simp only [ne_eq, not_true_eq_false, false_and, false_iff, not_and, not_not,
        List.mem_append, List.mem_singleton, reduceCtorEq, or_false]
      exact fun hadd => before_append_of_mem hadd (List.mem_singleton_self _)
    · rw [before_append_of_not_mem (by simpa using hsession)]
      simp [hsession, hinv.mem_iff]
  · rw [before_append_of_not_mem (by simp)] at h
    have hne : session ≠ closed := fun heq => hnew (heq ▸ h.mem_left)
    exact (List.mem_erase_of_ne hne).mpr (hinv.stranded session h)

variable (setting : PublisherTransientLocalSetting)

theorem SessionInv.step (hinv : SessionInv p) {action : Action}
    (hstep : step setting p action = some q) : SessionInv q := by
  have hnone : ∀ session, Event.add session ∉ ([] : List Event) ∧ Event.close session ∉ [] := by
    simp
  cases action with
  | acceptComplete ok =>
      obtain ⟨_, haccept, rfl⟩ := acceptComplete_eq_some hstep
      exact hinv.frame [] rfl rfl (by simp [haccept, AcceptLoop.pending]) (by simp) hnone
  | acceptHandler =>
      obtain ⟨_, ok, haccept, rfl⟩ := acceptHandler_eq_some hstep
      cases ok
      · exact hinv.frame [] rfl rfl (by simp [AcceptLoop.pending]) (by simp) hnone
      · exact hinv.frame _ rfl rfl (by simp [haccept, AcceptLoop.pending]) rfl (by simp)
  | acceptAdd => exact hinv.acceptAdd hstep
  | acceptRearm => exact hinv.acceptRearm hstep
  | close session => exact hinv.close hstep
  | sendBegin call =>
      obtain ⟨-, rfl⟩ := sendBegin_eq_some setting hstep
      exact hinv.frame [] rfl rfl (fun _ => id) (by simp) hnone
  | sendCheckEmpty call =>
      obtain ⟨-, rfl⟩ := sendCheckEmpty_eq_some hstep
      exact hinv.frame [] rfl rfl (fun _ => id) (by simp) hnone
  | sendFanOut call =>
      obtain ⟨-, rfl⟩ := sendFanOut_eq_some setting hstep
      exact hinv.frame _ rfl rfl (fun _ => id) rfl (by simp)
  | sendAppend call nowTp =>
      obtain ⟨-, -, rfl⟩ := sendAppend_eq_some setting hstep
      exact hinv.frame _ rfl rfl (fun _ => id) rfl (by simp)
  | replaySnapshot session nowTp =>
      obtain ⟨-, -, -, -, ⟨-, rfl⟩ | ⟨-, rfl⟩⟩ := replaySnapshot_eq_some setting hstep
      · exact hinv.frame [] rfl rfl (fun _ => id) (by simp) hnone
      · exact hinv.frame _ rfl rfl (fun _ => id) rfl (by simp)
  | replayPush session =>
      obtain ⟨frames, -, rfl⟩ := replayPush_eq_some hstep
      by_cases hframes : frames = []
      · exact hinv.frame [] rfl rfl (fun _ => id) (by simp [hframes]) hnone
      · exact hinv.frame [.pushTransientBuffer session frames] rfl rfl (fun _ => id)
          (by simp [hframes]) (by simp)
  | cancelClose call =>
      obtain ⟨-, rfl⟩ := cancelClose_eq_some hstep
      refine hinv.frame [] rfl rfl (fun session h => ?_) (by simp) hnone
      revert h
      cases p.accept <;> simp [AcceptLoop.pending]
  | cancelStop call =>
      obtain ⟨-, rfl⟩ := cancelStop_eq_some hstep
      exact hinv.frame _ rfl rfl (fun _ => id) rfl (by simp)
  | cancelSnapshot call =>
      obtain ⟨-, rfl⟩ := cancelSnapshot_eq_some hstep
      exact hinv.frame [] rfl rfl (fun _ => id) (by simp) hnone
  | cancelSession call =>
      obtain ⟨-, rfl⟩ | ⟨_, _, -, rfl⟩ := cancelSession_eq_some hstep
      · exact hinv.frame [] rfl rfl (fun _ => id) (by simp) hnone
      · exact hinv.frame _ rfl rfl (fun _ => id) rfl (by simp)

theorem Reachable.sessionInv (hreach : Reachable setting p) : SessionInv p := by
  induction hreach with
  | init outcome => exact sessionInv_start outcome
  | step action _ hstep ih => exact ih.step setting hstep

/-- Over every interleaving, `publisher_sessions_` holds, without duplicates, exactly the sessions
that were pushed and whose close callback has not run since; a session whose close callback ran
before its push stays in it. -/
theorem publisherSessions_pushed_not_closed (hreach : Reachable setting p) :
    p.sessions.Nodup ∧
      (∀ session, session ∈ p.sessions ↔
        Event.add session ∈ p.trace ∧ ¬ Before p.trace (.add session) (.close session)) ∧
      ∀ session, Before p.trace (.close session) (.add session) → session ∈ p.sessions :=
  have hinv := hreach.sessionInv
  ⟨hinv.nodup, hinv.mem_iff, hinv.stranded⟩

/-- Session `0` closed after its push, session `1` closed before it: only the stranded one is
listed. -/
theorem publisherSessions_pushed_not_closed_stranded :
    ∃ q, Reachable ⟨0, 0⟩ q ∧ q.sessions = [1] ∧ Before q.trace (.add 0) (.close 0) ∧
      Before q.trace (.close 1) (.add 1) ∧
      q.sessions.Nodup ∧
      (∀ session, session ∈ q.sessions ↔
        Event.add session ∈ q.trace ∧ ¬ Before q.trace (.add session) (.close session)) ∧
      ∀ session, Before q.trace (.close session) (.add session) → session ∈ q.sessions := by
  obtain ⟨q, hq, -, hprop⟩ := reachable_of_run ⟨0, 0⟩
    [.acceptComplete true, .acceptHandler, .acceptAdd, .acceptRearm, .close 0,
      .acceptComplete true, .acceptHandler, .close 1, .acceptAdd]
    (fun q => decide (q.sessions = [1] ∧ Before q.trace (.add 0) (.close 0) ∧
      Before q.trace (.close 1) (.add 1)))
    (.init ⟨true, true, true, true, true⟩) (by decide)
  obtain ⟨hsessions, hclosed, hstranded⟩ := of_decide_eq_true hprop
  exact ⟨q, hq, hsessions, hclosed, hstranded, publisherSessions_pushed_not_closed ⟨0, 0⟩ hq⟩

/-- A close callback that runs on another reactor thread between the accept handler's
`session->start()` and its `push_back` finds nothing to erase; the session is pushed after it
and stays in `publisher_sessions_` in every later state. -/
theorem publisherSessionClosedHandler_before_push_strands :
    ∃ q, Reachable ⟨0, 0⟩ q ∧ Event.close 0 ∈ q.trace ∧ 0 ∈ q.sessions ∧
      ∀ actions r, run ⟨0, 0⟩ q actions = some r → 0 ∈ r.sessions := by
  obtain ⟨q, hq, -, hbefore⟩ := reachable_of_run ⟨0, 0⟩
    [.acceptComplete true, .acceptHandler, .close 0, .acceptAdd]
    (fun q => decide (Before q.trace (.close 0) (.add 0))) (.init ⟨true, true, true, true, true⟩)
    (by decide)
  have hbefore : Before q.trace (.close 0) (.add 0) := of_decide_eq_true hbefore
  refine ⟨q, hq, hbefore.mem_left, (Reachable.sessionInv _ hq).stranded 0 hbefore,
    fun actions r hrun => ?_⟩
  exact (Reachable.sessionInv _ (hq.run _ hrun)).stranded 0
    (hbefore.of_prefix (run_trace_grows _ hrun))

/-! ### The order of the list -/

/-- The accept loop numbers sessions as it creates them and pushes them in that order. -/
structure ConnectionOrder (p : PublisherImpl) : Prop where
  sorted : p.sessions.Sorted (· < ·)
  /-- The session an accept in flight will push comes after every session pushed so far. -/
  added_lt_pending : ∀ added session, Event.add added ∈ p.trace →
    p.accept.pending = some session → added < session

theorem connectionOrder_start (outcome : StartOutcome) :
    ConnectionOrder (start outcome fresh).publisher := by
  obtain ⟨hsessions, htrace, -⟩ := start_fresh outcome
  exact ⟨by simp [hsessions], fun added _ h => by simp [htrace] at h⟩

/-- A step that leaves the list alone, pushes nothing and starts no new accept keeps the order. -/
theorem ConnectionOrder.frame (horder : ConnectionOrder p) (events : List Event)
    (hsessions : q.sessions = p.sessions)
    (hpending : ∀ session, q.accept.pending = some session → p.accept.pending = some session)
    (htrace : q.trace = p.trace ++ events) (hadd : ∀ session, Event.add session ∉ events) :
    ConnectionOrder q where
  sorted := hsessions ▸ horder.sorted
  added_lt_pending added session h hsession := by
    rw [htrace, List.mem_append, or_iff_left (hadd added)] at h
    exact horder.added_lt_pending added session h (hpending session hsession)

theorem ConnectionOrder.acceptAdd (horder : ConnectionOrder p) (hinv : SessionInv p)
    (hstep : acceptAdd p = some q) : ConnectionOrder q := by
  obtain ⟨added, haccept, rfl⟩ := acceptAdd_eq_some hstep
  refine ⟨List.pairwise_append.mpr ⟨horder.sorted, List.pairwise_singleton _ _, ?_⟩,
    by simp [AcceptLoop.pending]⟩
  intro listed hlisted last hlast
  rw [List.mem_singleton.mp hlast]
  exact horder.added_lt_pending listed added ((hinv.mem_iff listed).mp hlisted).1
    (by simp [haccept, AcceptLoop.pending])

theorem ConnectionOrder.acceptRearm (horder : ConnectionOrder p) (hinv : SessionInv p)
    (hstep : acceptRearm p = some q) : ConnectionOrder q := by
  obtain ⟨_, -, rfl⟩ := acceptRearm_eq_some hstep
  refine ⟨horder.sorted, fun added session h hsession => ?_⟩
  have hpending : session = p.nextSession := by
    unfold acceptClient at hsession
    split at hsession <;> simpa [AcceptLoop.pending, eq_comm] using hsession
  exact hpending ▸ hinv.added_lt added h

theorem ConnectionOrder.step (horder : ConnectionOrder p) (hinv : SessionInv p) {action : Action}
    (hstep : step setting p action = some q) : ConnectionOrder q := by
  cases action with
  | acceptComplete ok =>
      obtain ⟨_, haccept, rfl⟩ := acceptComplete_eq_some hstep
      exact horder.frame [] rfl (by simp [haccept, AcceptLoop.pending]) (by simp) (by simp)
  | acceptHandler =>
      obtain ⟨_, ok, haccept, rfl⟩ := acceptHandler_eq_some hstep
      cases ok
      · exact horder.frame [] rfl (by simp [AcceptLoop.pending]) (by simp) (by simp)
      · exact horder.frame _ rfl (by simp [haccept, AcceptLoop.pending]) rfl (by simp)
  | acceptAdd => exact horder.acceptAdd hinv hstep
  | acceptRearm => exact horder.acceptRearm hinv hstep
  | close session =>
      obtain ⟨-, -, rfl⟩ := publisherSessionClosedHandler_eq_some hstep
      exact ⟨horder.sorted.sublist (List.erase_sublist _ _), fun added pending h hpending =>
        horder.added_lt_pending added pending (by simpa using h) hpending⟩
  | sendBegin call =>
      obtain ⟨-, rfl⟩ := sendBegin_eq_some setting hstep
      exact horder.frame [] rfl (fun _ => id) (by simp) (by simp)
  | sendCheckEmpty call =>
      obtain ⟨-, rfl⟩ := sendCheckEmpty_eq_some hstep
      exact horder.frame [] rfl (fun _ => id) (by simp) (by simp)
  | sendFanOut call =>
      obtain ⟨-, rfl⟩ := sendFanOut_eq_some setting hstep
      exact horder.frame _ rfl (fun _ => id) rfl (by simp)
  | sendAppend call nowTp =>
      obtain ⟨-, -, rfl⟩ := sendAppend_eq_some setting hstep
      exact horder.frame _ rfl (fun _ => id) rfl (by simp)
  | replaySnapshot session nowTp =>
      obtain ⟨-, -, -, -, ⟨-, rfl⟩ | ⟨-, rfl⟩⟩ := replaySnapshot_eq_some setting hstep
      · exact horder.frame [] rfl (fun _ => id) (by simp) (by simp)
      · exact horder.frame _ rfl (fun _ => id) rfl (by simp)
  | replayPush session =>
      obtain ⟨frames, -, rfl⟩ := replayPush_eq_some hstep
      by_cases hframes : frames = []
      · exact horder.frame [] rfl (fun _ => id) (by simp [hframes]) (by simp)
      · exact horder.frame [.pushTransientBuffer session frames] rfl (fun _ => id)
          (by simp [hframes]) (by simp)
  | cancelClose call =>
      obtain ⟨-, rfl⟩ := cancelClose_eq_some hstep
      refine horder.frame [] rfl (fun session h => ?_) (by simp) (by simp)
      revert h
      cases p.accept <;> simp [AcceptLoop.pending]
  | cancelStop call =>
      obtain ⟨-, rfl⟩ := cancelStop_eq_some hstep
      exact horder.frame _ rfl (fun _ => id) rfl (by simp)
  | cancelSnapshot call =>
      obtain ⟨-, rfl⟩ := cancelSnapshot_eq_some hstep
      exact horder.frame [] rfl (fun _ => id) (by simp) (by simp)
  | cancelSession call =>
      obtain ⟨-, rfl⟩ | ⟨_, _, -, rfl⟩ := cancelSession_eq_some hstep
      · exact horder.frame [] rfl (fun _ => id) (by simp) (by simp)
      · exact horder.frame _ rfl (fun _ => id) rfl (by simp)

theorem Reachable.connectionOrder (hreach : Reachable setting p) : ConnectionOrder p := by
  induction hreach with
  | init outcome => exact connectionOrder_start outcome
  | step action hp hstep ih => exact ih.step setting (Reachable.sessionInv _ hp) hstep

/-- `Publisher_Impl::getSubscriberCount`: the size of `publisher_sessions_`, read under its
lock. -/
def getSubscriberCount (p : PublisherImpl) : ℕ := p.sessions.length

/-- The sessions pushed and not closed since, in the order they were created. -/
def connectedSessions (p : PublisherImpl) : List Session :=
  (List.range p.nextSession).filter fun session =>
    decide (Event.add session ∈ p.trace ∧ ¬ Before p.trace (.add session) (.close session))

/-- Over every interleaving, `publisher_sessions_` is determined by the history: it lists, in
the order the sessions were created, every session pushed and not closed since.  So
`getSubscriberCount` counts exactly those sessions, and a fan-out hands its frame to them in
the order they connected. -/
theorem publisherSessions_eq_connected (hreach : Reachable setting p) :
    p.sessions = connectedSessions p ∧ getSubscriberCount p = (connectedSessions p).length ∧
      ∀ call q, step setting p (.sendFanOut call) = some q →
        q.trace = p.trace ++ .fanOut call :: (connectedSessions p).map (.sendDataBuffer · call) := by
  have hinv := hreach.sessionInv
  have hsorted := (hreach.connectionOrder setting).sorted
  have hlist : p.sessions = connectedSessions p := by
    refine List.eq_of_perm_of_sorted ?_ hsorted ((List.pairwise_lt_range _).filter _)
    refine (List.perm_ext_iff_of_nodup hinv.nodup ((List.nodup_range _).filter _)).mpr
      fun session => ?_
    rw [hinv.mem_iff, List.mem_filter, List.mem_range, decide_eq_true_iff]
    exact ⟨fun h => ⟨hinv.added_lt session h.1, h⟩, And.right⟩
  refine ⟨hlist, congrArg List.length hlist, fun call q hstep => ?_⟩
  obtain ⟨-, rfl⟩ := sendFanOut_eq_some setting hstep
  rw [← hlist]

/-- Three sessions, the middle one closed, then a fan-out: the list and the hand-out skip it. -/
theorem publisherSessions_eq_connected_middle_closed :
    ∃ p, Reachable ⟨0, 0⟩ p ∧ p.sessions = [0, 2] ∧ p.sends 0 = .fanOut ∧
      p.sessions = connectedSessions p ∧ getSubscriberCount p = (connectedSessions p).length ∧
      ∀ call q, step ⟨0, 0⟩ p (.sendFanOut call) = some q →
        q.trace = p.trace ++ .fanOut call :: (connectedSessions p).map (.sendDataBuffer · call) := by
  obtain ⟨p, hp, -, hprop⟩ := reachable_of_run ⟨0, 0⟩
    [.acceptComplete true, .acceptHandler, .acceptAdd, .acceptRearm, .acceptComplete true,
      .acceptHandler, .acceptAdd, .acceptRearm, .acceptComplete true, .acceptHandler, .acceptAdd,
      .close 1, .sendBegin 0, .sendCheckEmpty 0]
    (fun p => decide (p.sessions = [0, 2] ∧ p.sends 0 = .fanOut))
    (.init ⟨true, true, true, true, true⟩) (by decide)
  obtain ⟨hsessions, hpc⟩ := of_decide_eq_true hprop
  exact ⟨p, hp, hsessions, hpc, publisherSessions_eq_connected ⟨0, 0⟩ hp⟩

end TcpPubsub.Publisher
