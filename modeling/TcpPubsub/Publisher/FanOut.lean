import TcpPubsub.Publisher.Sessions

/-!
# The fan-out

`send` hands its frame to the sessions inside one critical section on
`publisher_sessions_mutex_`, the lock under which sessions are also pushed and erased.  Each
call fans out once, to exactly the sessions in the list at that moment, so every session is
handed its frames in the one global fan-out order.  The append to the transient-local buffer
is a second critical section, on another lock, that each call enters after its fan-out.
-/

namespace TcpPubsub.Publisher

open TransientLocal

/-- A call of `send` that has passed its fan-out, or returned. -/
def SendPc.fannedOut : SendPc → Bool
  | .append | .done _ => true
  | _ => false

/-- What the calls of `send` keep true of their critical sections. -/
structure SendInv (p : PublisherImpl) : Prop where
  nodup : (sendSections p.trace).Nodup
  fannedOut : ∀ call, SendSection.fanOut call ∈ sendSections p.trace → (p.sends call).fannedOut
  appended : ∀ call, SendSection.append call ∈ sendSections p.trace → p.sends call = .done true
  fanOut_of_append : ∀ call, p.sends call = .append →
    SendSection.fanOut call ∈ sendSections p.trace
  fanOut_before_append : ∀ call, SendSection.append call ∈ sendSections p.trace →
    Before (sendSections p.trace) (.fanOut call) (.append call)
  handed_sublist : ∀ session, List.Sublist (handedTo session p.trace) (fanOutOrder p.trace)
  handed_after_add : ∀ session call, call ∈ handedTo session p.trace →
    Before p.trace (.add session) (.sendDataBuffer session call)

variable {p q : PublisherImpl}

theorem sendInv_start (outcome : StartOutcome) : SendInv (start outcome fresh).publisher := by
  obtain ⟨-, htrace, -, -, hsends, -, -⟩ := start_fresh outcome
  refine ⟨?_, ?_, ?_, ?_, ?_, ?_, ?_⟩ <;>
    simp [htrace, hsends, sendSections, handedTo, fanOutOrder]

theorem fanOutOrder_eq_nil {events : List Event} (hsections : sendSections events = []) :
    fanOutOrder events = [] := by
  simp [fanOutOrder, hsections]

/-- A step that runs no critical section of `send` keeps the invariant. -/
theorem SendInv.frame (hinv : SendInv p) (events : List Event) (hsends : q.sends = p.sends)
    (htrace : q.trace = p.trace ++ events) (hsections : sendSections events = [])
    (hhanded : ∀ session, handedTo session events = []) : SendInv q := by
  have hsame : sendSections q.trace = sendSections p.trace := by simp [htrace, hsections]
  have hfanOut : fanOutOrder q.trace = fanOutOrder p.trace := by
    simp [htrace, fanOutOrder_eq_nil hsections]
  have hhandedTo : ∀ session, handedTo session q.trace = handedTo session p.trace := by
    simp [htrace, hhanded]
  refine ⟨hsame ▸ hinv.nodup, ?_, ?_, ?_, ?_, fun session => ?_, fun session call h => ?_⟩
  · rw [hsame, hsends]; exact hinv.fannedOut
  · rw [hsame, hsends]; exact hinv.appended
  · rw [hsame, hsends]; exact hinv.fanOut_of_append
  · rw [hsame]; exact hinv.fanOut_before_append
  · rw [hhandedTo, hfanOut]; exact hinv.handed_sublist session
  · rw [hhandedTo] at h
    rw [htrace]
    exact (hinv.handed_after_add session call h).append events

/-- A call that has run neither critical section can move to any place short of the append. -/
theorem SendInv.update (hinv : SendInv p) {call : SendCall} {pc : SendPc}
    (hfanOut : SendSection.fanOut call ∉ sendSections p.trace)
    (happend : SendSection.append call ∉ sendSections p.trace) (hpc : pc ≠ .append) :
    SendInv { p with sends := Function.update p.sends call pc } := by
  refine ⟨hinv.nodup, fun other h => ?_, fun other h => ?_, fun other h => ?_,
    hinv.fanOut_before_append, hinv.handed_sublist, hinv.handed_after_add⟩
  · have hne : other ≠ call := by rintro rfl; exact hfanOut h
    simpa [hne] using hinv.fannedOut other h
  · have hne : other ≠ call := by rintro rfl; exact happend h
    simpa [hne] using hinv.appended other h
  · have hne : other ≠ call := by rintro rfl; simp_all
    exact hinv.fanOut_of_append other (by simpa [hne] using h)

theorem SendInv.not_fanOut (hinv : SendInv p) {call : SendCall}
    (hpc : (p.sends call).fannedOut = false) : SendSection.fanOut call ∉ sendSections p.trace :=
  fun h => by simpa [hpc] using hinv.fannedOut call h

theorem SendInv.not_append (hinv : SendInv p) {call : SendCall}
    (hpc : p.sends call ≠ .done true) : SendSection.append call ∉ sendSections p.trace :=
  fun h => hpc (hinv.appended call h)

variable (setting : PublisherTransientLocalSetting)

/-- The fan-out hands the frame to each session of the list once, on distinct sessions. -/
theorem handedTo_fanOut (hsessions : p.sessions.Nodup) (session : Session) (call : SendCall) :
    handedTo session (.fanOut call :: p.sessions.map (.sendDataBuffer · call)) =
      if session ∈ p.sessions then [call] else [] := by
  simpa [handedTo, List.filterMap_cons] using filterMap_sendDataBuffer hsessions session call

theorem SendInv.sendFanOut (hinv : SendInv p) (hsessions : SessionInv p) {call : SendCall}
    (hstep : sendFanOut setting call p = some q) : SendInv q := by
  obtain ⟨hpc, rfl⟩ := sendFanOut_eq_some setting hstep
  have hnew : SendSection.fanOut call ∉ sendSections p.trace :=
    hinv.not_fanOut (by simp [hpc, SendPc.fannedOut])
  have hsections : sendSections (p.trace ++ .fanOut call :: p.sessions.map (.sendDataBuffer · call)) =
      sendSections p.trace ++ [.fanOut call] := by
    simp [sendSections, List.filterMap_cons, List.filterMap_map]
  have hfanOut : fanOutOrder (p.trace ++ .fanOut call :: p.sessions.map (.sendDataBuffer · call)) =
      fanOutOrder p.trace ++ [call] := by
    simp [fanOutOrder, hsections, SendSection.fannedOut]
  refine ⟨?_, fun other h => ?_, fun other h => ?_, fun other h => ?_, fun other h => ?_,
    fun session => ?_, fun session other h => ?_⟩
  · rw [hsections]
    exact hinv.nodup.append (List.nodup_singleton _) (by simpa using hnew)
  · rw [hsections, List.mem_append, List.mem_singleton] at h
    by_cases hother : other = call
    · subst hother
      split <;> simp [SendPc.fannedOut]
    · simpa [hother] using hinv.fannedOut other (by simpa [hother] using h)
  · rw [hsections, List.mem_append, List.mem_singleton, or_iff_left (by simp)] at h
    have hne : other ≠ call := by rintro rfl; simpa [hpc] using hinv.appended _ h
    simpa [hne] using hinv.appended other h
  · rw [hsections, List.mem_append, List.mem_singleton]
    by_cases hother : other = call
    · simp [hother]
    · exact .inl (hinv.fanOut_of_append other (by simpa [hother] using h))
  · rw [hsections, List.mem_append, List.mem_singleton, or_iff_left (by simp)] at h
    rw [hsections]
    exact (hinv.fanOut_before_append other h).append _
  · rw [handedTo_append, handedTo_fanOut hsessions.nodup, hfanOut]
    refine (hinv.handed_sublist session).append ?_
    split <;> simp
  · rw [handedTo_append, handedTo_fanOut hsessions.nodup, List.mem_append] at h
    rcases h with h | h
    · exact (hinv.handed_after_add session other h).append _
    · split at h
      · rename_i hmember
        simp only [List.mem_singleton] at h
        subst h
        exact before_append_of_mem ((hsessions.mem_iff session).mp hmember).1 (by simp [hmember])
      · simp at h

theorem SendInv.sendAppend (hinv : SendInv p) {call : SendCall} {nowTp : ℤ}
    (hstep : sendAppend setting call nowTp p = some q) : SendInv q := by
  obtain ⟨hpc, -, rfl⟩ := sendAppend_eq_some setting hstep
  have hnew : SendSection.append call ∉ sendSections p.trace := hinv.not_append (by simp [hpc])
  have hsections : sendSections (p.trace ++ [.append call nowTp]) =
      sendSections p.trace ++ [.append call] := by
    simp [sendSections]
  have hfanned := hinv.fanOut_of_append call hpc
  refine ⟨?_, fun other h => ?_, fun other h => ?_, fun other h => ?_, fun other h => ?_,
    fun session => ?_, fun session other h => ?_⟩
  · rw [hsections]
    exact hinv.nodup.append (List.nodup_singleton _) (by simpa using hnew)
  · rw [hsections, List.mem_append, List.mem_singleton, or_iff_left (by simp)] at h
    by_cases hother : other = call
    · subst hother
      simp [SendPc.fannedOut]
    · simpa [hother] using hinv.fannedOut other h
  · rw [hsections, List.mem_append, List.mem_singleton] at h
    by_cases hother : other = call
    · subst hother
      simp
    · simpa [hother] using hinv.appended other (by simpa [hother] using h)
  · by_cases hother : other = call
    · subst hother
      simp at h
    · rw [hsections]
      exact List.mem_append_left _ (hinv.fanOut_of_append other (by simpa [hother] using h))
  · rw [hsections, before_append_iff]
    rw [hsections, List.mem_append, List.mem_singleton] at h
    by_cases hother : other = call
    · subst hother
      exact .inr (.inl ⟨hfanned, by simp⟩)
    · exact .inl (hinv.fanOut_before_append other (by simpa [hother] using h))
  · simpa [handedTo, fanOutOrder, hsections, SendSection.fannedOut] using
      hinv.handed_sublist session
  · exact (hinv.handed_after_add session other (by simpa [handedTo] using h)).append _

theorem SendInv.step (hinv : SendInv p) (hsessions : SessionInv p) {action : Action}
    (hstep : step setting p action = some q) : SendInv q := by
  cases action with
  | acceptComplete ok =>
      obtain ⟨_, _, rfl⟩ := acceptComplete_eq_some hstep
      exact hinv.frame [] rfl (List.append_nil _).symm rfl fun _ => rfl
  | acceptHandler =>
      obtain ⟨_, ok, _, rfl⟩ := acceptHandler_eq_some hstep
      cases ok
      · exact hinv.frame [] rfl (List.append_nil _).symm rfl fun _ => rfl
      · exact hinv.frame _ rfl rfl rfl fun _ => rfl
  | acceptAdd =>
      obtain ⟨_, _, rfl⟩ := acceptAdd_eq_some hstep
      exact hinv.frame _ rfl rfl rfl fun _ => rfl
  | acceptRearm =>
      obtain ⟨_, _, rfl⟩ := acceptRearm_eq_some hstep
      exact hinv.frame [] rfl (List.append_nil _).symm rfl fun _ => rfl
  | close session =>
      obtain ⟨-, -, rfl⟩ := publisherSessionClosedHandler_eq_some hstep
      exact hinv.frame _ rfl rfl rfl fun _ => rfl
  | sendBegin call =>
      obtain ⟨hpc, rfl⟩ := sendBegin_eq_some setting hstep
      exact hinv.update (hinv.not_fanOut (by simp [hpc, SendPc.fannedOut]))
        (hinv.not_append (by simp [hpc])) (by split_ifs <;> simp)
  | sendCheckEmpty call =>
      obtain ⟨hpc, rfl⟩ := sendCheckEmpty_eq_some hstep
      exact hinv.update (hinv.not_fanOut (by simp [hpc, SendPc.fannedOut]))
        (hinv.not_append (by simp [hpc])) (by split_ifs <;> simp)
  | sendFanOut call => exact hinv.sendFanOut setting hsessions hstep
  | sendAppend call nowTp => exact hinv.sendAppend setting hstep
  | replaySnapshot session nowTp =>
      obtain ⟨-, -, -, -, ⟨-, rfl⟩ | ⟨-, rfl⟩⟩ := replaySnapshot_eq_some setting hstep
      · exact hinv.frame [] rfl (List.append_nil _).symm rfl fun _ => rfl
      · exact hinv.frame _ rfl rfl rfl fun _ => rfl
  | replayPush session =>
      obtain ⟨frames, -, rfl⟩ := replayPush_eq_some hstep
      by_cases hframes : frames = []
      · exact hinv.frame [] rfl (by simp [hframes]) rfl fun _ => rfl
      · exact hinv.frame [.pushTransientBuffer session frames] rfl (by simp [hframes]) rfl
          fun _ => rfl
  | cancelClose call =>
      obtain ⟨-, rfl⟩ := cancelClose_eq_some hstep
      exact hinv.frame [] rfl (List.append_nil _).symm rfl fun _ => rfl
  | cancelStop call =>
      obtain ⟨-, rfl⟩ := cancelStop_eq_some hstep
      exact hinv.frame _ rfl rfl rfl fun _ => rfl
  | cancelSnapshot call =>
      obtain ⟨-, rfl⟩ := cancelSnapshot_eq_some hstep
      exact hinv.frame [] rfl (List.append_nil _).symm rfl fun _ => rfl
  | cancelSession call =>
      obtain ⟨-, rfl⟩ | ⟨_, _, -, rfl⟩ := cancelSession_eq_some hstep
      · exact hinv.frame [] rfl (List.append_nil _).symm rfl fun _ => rfl
      · exact hinv.frame _ rfl rfl rfl fun _ => rfl

theorem Reachable.sendInv (hreach : Reachable setting p) : SendInv p := by
  induction hreach with
  | init outcome => exact sendInv_start outcome
  | step action hprev hstep ih => exact ih.step setting (hprev.sessionInv setting) hstep

/-! ### What each session is handed -/

theorem mem_fanOutOrder {trace : List Event} {call : SendCall} :
    call ∈ fanOutOrder trace ↔ SendSection.fanOut call ∈ sendSections trace := by
  simp only [fanOutOrder, List.mem_filterMap]
  constructor
  · rintro ⟨section_, hsection, hcall⟩
    cases section_ <;> simp_all [SendSection.fannedOut]
  · exact fun h => ⟨_, h, rfl⟩

theorem SendInv.fanOutOrder_nodup (hinv : SendInv p) : (fanOutOrder p.trace).Nodup :=
  hinv.nodup.filterMap fun first second call hfirst hsecond => by
    cases first <;> cases second <;> simp_all [SendSection.fannedOut]

/-- The frames a step hands to `session`: a fan-out hands its frame to the sessions in the list
at that moment, and no other step hands any. -/
def handedBy (p : PublisherImpl) (session : Session) : Action → List SendCall
  | .sendFanOut call => if session ∈ p.sessions then [call] else []
  | _ => []

theorem handedTo_stepEvents (hsessions : p.sessions.Nodup) (session : Session) (action : Action) :
    handedTo session (stepEvents setting p action) = handedBy p session action := by
  cases action <;> simp only [stepEvents, handedBy]
  case sendFanOut call => exact handedTo_fanOut hsessions session call
  all_goals (try split) <;> (try split) <;> rfl

/-- A call that has reached its fan-out can always take it, whatever the other threads do: the
step waits for nothing but the sessions lock, and hands the frame to every session listed. -/
theorem sendFanOut_enabled {call : SendCall} (hpc : p.sends call = .fanOut) :
    ∃ q, step setting p (.sendFanOut call) = some q ∧
      q.trace = p.trace ++ .fanOut call :: p.sessions.map (.sendDataBuffer · call) :=
  ⟨_, if_pos hpc, rfl⟩

/-- What the fan-out hands the sessions. -/
structure FanOutDelivery (p : PublisherImpl) : Prop where
  /-- Every step hands each session exactly what `handedBy` says. -/
  handed : ∀ action q, step setting p action = some q → ∀ session,
    handedTo session q.trace = handedTo session p.trace ++ handedBy p session action
  /-- A call fans out once: its frame has gone to no session before. -/
  once : ∀ call q, step setting p (.sendFanOut call) = some q →
    ∀ session, call ∉ handedTo session p.trace
  nodup : ∀ session, (handedTo session p.trace).Nodup
  /-- Each session is handed its frames in the global fan-out order. -/
  ordered : ∀ session, List.Sublist (handedTo session p.trace) (fanOutOrder p.trace)
  /-- Two sessions are handed any two frames they share in the same order. -/
  agree : ∀ first second (frame frame' : SendCall),
    frame ∈ handedTo first p.trace → frame' ∈ handedTo first p.trace →
    frame ∈ handedTo second p.trace → frame' ∈ handedTo second p.trace →
    (Before (handedTo first p.trace) frame frame' ↔ Before (handedTo second p.trace) frame frame')

/-- Over every interleaving of sends with pushes and erasures of sessions, each call of `send`
hands its frame once to exactly the sessions in the list at its fan-out, and any two sessions
see the frames they share in one order. -/
theorem fanOut_delivers (hreach : Reachable setting p) : FanOutDelivery setting p := by
  have hsessions := hreach.sessionInv setting
  have hinv := hreach.sendInv setting
  have hnodup := hinv.fanOutOrder_nodup
  refine ⟨fun action q hstep session => ?_, fun call q hstep session hcall => ?_,
    fun session => hnodup.sublist (hinv.handed_sublist session), hinv.handed_sublist,
    fun first second frame frame' h₁ h₁' h₂ h₂' => ?_⟩
  · rw [step_trace_eq setting hstep, handedTo_append, handedTo_stepEvents setting hsessions.nodup]
  · obtain ⟨hpc, -⟩ := sendFanOut_eq_some setting hstep
    exact hinv.not_fanOut (by simp [hpc, SendPc.fannedOut])
      (mem_fanOutOrder.mp ((hinv.handed_sublist session).subset hcall))
  · have hthrough (session : Session) (hframe : frame ∈ handedTo session p.trace)
        (hframe' : frame' ∈ handedTo session p.trace) :
        Before (handedTo session p.trace) frame frame' ↔ Before (fanOutOrder p.trace) frame frame' :=
      ⟨fun h => List.Sublist.trans h (hinv.handed_sublist session),
        Before.of_sublist (hinv.handed_sublist session) hnodup hframe hframe'⟩
    rw [hthrough first h₁ h₁', hthrough second h₂ h₂']

/-- Two sessions, the first closed between two sends: it is handed the first frame only, the
second both, in fan-out order. -/
theorem fanOut_delivers_after_close :
    ∃ q, Reachable ⟨1, 0⟩ q ∧ q.sessions = [1] ∧ handedTo 0 q.trace = [0] ∧
      handedTo 1 q.trace = [0, 1] ∧ FanOutDelivery ⟨1, 0⟩ q := by
  obtain ⟨q, hq, -, hprop⟩ := reachable_of_run ⟨1, 0⟩
    [.acceptComplete true, .acceptHandler, .acceptAdd, .acceptRearm, .acceptComplete true,
      .acceptHandler, .acceptAdd, .sendBegin 0, .sendFanOut 0, .sendAppend 0 0, .close 0,
      .sendBegin 1, .sendFanOut 1]
    (fun q => decide (q.sessions = [1] ∧ handedTo 0 q.trace = [0] ∧ handedTo 1 q.trace = [0, 1]))
    (.init ⟨true, true, true, true, true⟩) (by decide)
  obtain ⟨hsessions, hfirst, hsecond⟩ := of_decide_eq_true hprop
  exact ⟨q, hq, hsessions, hfirst, hsecond, fanOut_delivers ⟨1, 0⟩ hq⟩

end TcpPubsub.Publisher
