import TcpPubsub.Publisher.FanOut

/-!
# The transient-local buffer and the replay

`transient_local_buffers_` changes only inside critical sections on `transient_local_mtx_`:
send's append-and-purge and the replay handler's purge-and-copy, each reading the steady clock
inside the lock.  At every reachable state the buffer is the transient-local run of those
critical sections, read off the trace, so the laws of the buffer alone hold of the publisher.
The replay handler copies the buffer out once per session and pushes the copy to it.
-/

namespace TcpPubsub.Publisher

open TransientLocal

variable (setting : PublisherTransientLocalSetting)

/-- What the critical sections on `transient_local_mtx_` and the replay handlers keep true. -/
structure ReplayInv (p : PublisherImpl) : Prop where
  /-- The buffer is the run of the critical sections recorded in the trace. -/
  buffers_eq : p.transientLocalBuffers = runTransientLocal setting (transientLocalSteps p.trace)
  clock_sorted : ((transientLocalSteps p.trace).map TransientLocalStep.nowTp).Sorted (· ≤ ·)
  clock_ge : ∀ step ∈ transientLocalSteps p.trace, step.nowTp ≤ p.clock
  /-- A replay about to push holds frames in append order... -/
  pushing_sublist : ∀ session frames, p.replays session = .pushing frames →
    List.Sublist frames (appendOrder p.trace)
  /-- ...each appended before the handler's snapshot. -/
  pushing_appended : ∀ session frames, p.replays session = .pushing frames → ∀ frame ∈ frames,
    ∃ nowTp snapshotTp, Before p.trace (.append frame nowTp) (.snapshot session snapshotTp)
  /-- A session is pushed its replay buffer once. -/
  pushed_done : ∀ session frames, Event.pushTransientBuffer session frames ∈ p.trace →
    p.replays session = .done
  replayed_sublist : ∀ session, List.Sublist (replayedTo session p.trace) (appendOrder p.trace)
  replayed_appended : ∀ session frame, frame ∈ replayedTo session p.trace →
    ∃ nowTp snapshotTp, Before p.trace (.append frame nowTp) (.snapshot session snapshotTp)

variable {setting} {p q : PublisherImpl}

theorem replayInv_start (outcome : StartOutcome) :
    ReplayInv setting (start outcome fresh).publisher := by
  obtain ⟨-, htrace, hbuffers, -, -, hreplays, -⟩ := start_fresh outcome
  refine ⟨?_, ?_, ?_, ?_, ?_, ?_, ?_, ?_⟩ <;>
    simp [htrace, hbuffers, hreplays, transientLocalSteps, runTransientLocal, replayedTo]

theorem mem_transientLocalSteps {trace : List Event} {call : SendCall} {nowTp : ℤ}
    (h : TransientLocalStep.send call nowTp ∈ transientLocalSteps trace) :
    Event.append call nowTp ∈ trace := by
  obtain ⟨event, hevent, hstep⟩ := List.mem_filterMap.mp h
  cases event <;> simp_all

theorem mem_replayedTo {trace : List Event} {session : Session} {frame : SendCall}
    (h : frame ∈ replayedTo session trace) :
    ∃ frames, frame ∈ frames ∧ Event.pushTransientBuffer session frames ∈ trace := by
  obtain ⟨event, hevent, hframe⟩ := List.mem_flatMap.mp h
  cases event <;> simp only [List.not_mem_nil] at hframe
  split at hframe
  · subst session
    exact ⟨_, hframe, hevent⟩
  · simp at hframe

theorem replayedTo_eq_nil {events : List Event}
    (hpush : ∀ session frames, Event.pushTransientBuffer session frames ∉ events)
    (session : Session) : replayedTo session events = [] := by
  refine List.eq_nil_iff_forall_not_mem.mpr fun frame hframe => ?_
  obtain ⟨frames, -, hevent⟩ := mem_replayedTo hframe
  exact hpush _ _ hevent

theorem appendOrder_eq_nil {events : List Event} (hsteps : transientLocalSteps events = []) :
    appendOrder events = [] := by
  rw [← stampedFrames_transientLocalSteps, hsteps]
  rfl

theorem runTransientLocal_append (steps : List (TransientLocalStep SendCall))
    (step : TransientLocalStep SendCall) :
    runTransientLocal setting (steps ++ [step]) =
      transientLocalStep setting (runTransientLocal setting steps) step := by
  simp [runTransientLocal, List.foldl_append]

/-- A critical section that reads the clock at or after every earlier reading keeps the
readings sorted, and the clock then stands at its reading. -/
theorem clock_step {steps : List (TransientLocalStep SendCall)} {clock : ℤ}
    (hsorted : (steps.map TransientLocalStep.nowTp).Sorted (· ≤ ·))
    (hge : ∀ step ∈ steps, step.nowTp ≤ clock) (step : TransientLocalStep SendCall)
    (hclock : clock ≤ step.nowTp) :
    ((steps ++ [step]).map TransientLocalStep.nowTp).Sorted (· ≤ ·) ∧
      ∀ later ∈ steps ++ [step], later.nowTp ≤ step.nowTp := by
  refine ⟨?_, fun later hlater => ?_⟩
  · simp only [List.map_append, List.map_cons, List.map_nil, List.Sorted, List.pairwise_append,
      List.pairwise_singleton, List.mem_singleton, forall_eq, true_and]
    exact ⟨hsorted, fun _ h => by
      obtain ⟨earlier, hearlier, rfl⟩ := List.mem_map.mp h
      exact (hge earlier hearlier).trans hclock⟩
  · rcases List.mem_append.mp hlater with h | h
    · exact (hge later h).trans hclock
    · rw [List.mem_singleton.mp h]

/-- A step outside `transient_local_mtx_` that pushes no replay keeps the invariant. -/
theorem ReplayInv.frame (hinv : ReplayInv setting p) (events : List Event)
    (hbuffers : q.transientLocalBuffers = p.transientLocalBuffers) (hclock : q.clock = p.clock)
    (hreplays : q.replays = p.replays) (htrace : q.trace = p.trace ++ events)
    (hsteps : transientLocalSteps events = [])
    (hpush : ∀ session frames, Event.pushTransientBuffer session frames ∉ events) :
    ReplayInv setting q := by
  have hsame : transientLocalSteps q.trace = transientLocalSteps p.trace := by
    simp [htrace, hsteps]
  have happend : appendOrder q.trace = appendOrder p.trace := by
    simp [htrace, appendOrder_eq_nil hsteps]
  have hreplayed : ∀ session, replayedTo session q.trace = replayedTo session p.trace := by
    simp [htrace, replayedTo_eq_nil hpush]
  refine ⟨?_, ?_, ?_, fun session frames h => ?_, fun session frames h frame hframe => ?_,
    fun session frames h => ?_, fun session => ?_, fun session frame h => ?_⟩
  · rw [hbuffers, hsame]; exact hinv.buffers_eq
  · rw [hsame]; exact hinv.clock_sorted
  · rw [hsame, hclock]; exact hinv.clock_ge
  · rw [hreplays] at h
    rw [happend]
    exact hinv.pushing_sublist session frames h
  · rw [hreplays] at h
    obtain ⟨nowTp, snapshotTp, hbefore⟩ := hinv.pushing_appended session frames h frame hframe
    exact ⟨nowTp, snapshotTp, htrace ▸ hbefore.append events⟩
  · rw [htrace, List.mem_append, or_iff_left (hpush session frames)] at h
    rw [hreplays]
    exact hinv.pushed_done session frames h
  · rw [hreplayed, happend]; exact hinv.replayed_sublist session
  · rw [hreplayed] at h
    obtain ⟨nowTp, snapshotTp, hbefore⟩ := hinv.replayed_appended session frame h
    exact ⟨nowTp, snapshotTp, htrace ▸ hbefore.append events⟩

theorem ReplayInv.sendAppend (hinv : ReplayInv setting p) {call : SendCall} {nowTp : ℤ}
    (hstep : sendAppend setting call nowTp p = some q) : ReplayInv setting q := by
  obtain ⟨-, hclock, rfl⟩ := sendAppend_eq_some setting hstep
  have hsteps : transientLocalSteps (p.trace ++ [.append call nowTp]) =
      transientLocalSteps p.trace ++ [.send call nowTp] := by
    simp [transientLocalSteps]
  obtain ⟨hsorted, hge⟩ := clock_step hinv.clock_sorted hinv.clock_ge (.send call nowTp) hclock
  refine ⟨?_, hsteps ▸ hsorted, hsteps ▸ hge, fun session frames h => ?_,
    fun session frames h frame hframe => ?_, fun session frames h => ?_, fun session => ?_,
    fun session frame h => ?_⟩
  · rw [hsteps, runTransientLocal_append, hinv.buffers_eq]
  · exact (hinv.pushing_sublist session frames h).trans (by simp)
  · obtain ⟨nowTp, snapshotTp, hbefore⟩ := hinv.pushing_appended session frames h frame hframe
    exact ⟨nowTp, snapshotTp, hbefore.append _⟩
  · exact hinv.pushed_done session frames (by simpa using h)
  · simpa [replayedTo] using (hinv.replayed_sublist session).trans (List.sublist_append_left _ _)
  · obtain ⟨nowTp, snapshotTp, hbefore⟩ :=
      hinv.replayed_appended session frame (by simpa [replayedTo] using h)
    exact ⟨nowTp, snapshotTp, hbefore.append _⟩

theorem ReplayInv.replaySnapshot (hinv : ReplayInv setting p) {session : Session} {nowTp : ℤ}
    (hstep : replaySnapshot setting session nowTp p = some q) : ReplayInv setting q := by
  obtain ⟨hidle, -, -, hclock, ⟨-, rfl⟩ | ⟨hcount, rfl⟩⟩ := replaySnapshot_eq_some setting hstep
  · refine ⟨hinv.buffers_eq, hinv.clock_sorted, hinv.clock_ge, fun other frames h => ?_,
      fun other frames h => ?_, fun other frames h => ?_, hinv.replayed_sublist,
      hinv.replayed_appended⟩
    · have hother : other ≠ session := by rintro rfl; simp at h
      exact hinv.pushing_sublist other frames (by simpa [hother] using h)
    · have hother : other ≠ session := by rintro rfl; simp at h
      exact hinv.pushing_appended other frames (by simpa [hother] using h)
    · by_cases hother : other = session
      · subst hother
        simp
      · simpa [hother] using hinv.pushed_done other frames h
  have hsteps : transientLocalSteps (p.trace ++ [.snapshot session nowTp]) =
      transientLocalSteps p.trace ++ [.replay nowTp] := by
    simp [transientLocalSteps]
  have hpurge : purgeExpiredTransientLocalBuffers setting p.transientLocalBuffers nowTp <:+
      stampedFrames (transientLocalSteps p.trace) := by
    refine (purge_suffix setting _ nowTp).trans ?_
    rw [hinv.buffers_eq]
    simpa using foldl_suffix_stampedFrames (Nat.pos_of_ne_zero hcount) _ (List.suffix_refl [])
  obtain ⟨hsorted, hge⟩ := clock_step hinv.clock_sorted hinv.clock_ge (.replay nowTp) hclock
  refine ⟨?_, hsteps ▸ hsorted, hsteps ▸ hge, fun other frames h => ?_,
    fun other frames h frame hframe => ?_, fun other frames h => ?_, fun other => ?_,
    fun other frame h => ?_⟩
  · rw [hsteps, runTransientLocal_append, ← hinv.buffers_eq]
    simp [transientLocalStep, hcount]
  · by_cases hother : other = session
    · subst hother
      simp only [Function.update_same, ReplayPc.pushing.injEq] at h
      subst h
      rw [appendOrder_append, ← stampedFrames_transientLocalSteps]
      exact ((hpurge.map _).sublist).trans (List.sublist_append_left _ _)
    · exact (hinv.pushing_sublist other frames (by simpa [hother] using h)).trans (by simp)
  · by_cases hother : other = session
    · subst hother
      simp only [Function.update_same, ReplayPc.pushing.injEq] at h
      subst h
      obtain ⟨element, helement, rfl⟩ := List.mem_map.mp hframe
      have happend := mem_transientLocalSteps (mem_stampedFrames (hpurge.subset helement))
      exact ⟨_, nowTp, before_append_of_mem happend (List.mem_singleton_self _)⟩
    · obtain ⟨appendTp, snapshotTp, hbefore⟩ :=
        hinv.pushing_appended other frames (by simpa [hother] using h) frame hframe
      exact ⟨appendTp, snapshotTp, hbefore.append _⟩
  · have hold := hinv.pushed_done other frames (by simpa using h)
    have hother : other ≠ session := by rintro rfl; simp [hidle] at hold
    simpa [hother] using hold
  · simpa [replayedTo] using (hinv.replayed_sublist other).trans (List.sublist_append_left _ _)
  · obtain ⟨appendTp, snapshotTp, hbefore⟩ :=
      hinv.replayed_appended other frame (by simpa [replayedTo] using h)
    exact ⟨appendTp, snapshotTp, hbefore.append _⟩

theorem ReplayInv.replayPush (hinv : ReplayInv setting p) {session : Session}
    (hstep : replayPush session p = some q) : ReplayInv setting q := by
  obtain ⟨frames, hreplay, rfl⟩ := replayPush_eq_some hstep
  obtain ⟨events, htrace, hsteps, hreplayed, hpushed⟩ : ∃ events : List Event,
      (if frames = [] then p.trace else p.trace ++ [.pushTransientBuffer session frames]) =
        p.trace ++ events ∧ transientLocalSteps events = [] ∧
      (∀ other, replayedTo other events = if other = session then frames else []) ∧
      ∀ other frames', Event.pushTransientBuffer other frames' ∈ events → other = session := by
    by_cases hframes : frames = []
    · exact ⟨[], by simp [hframes], rfl, fun other => by simp [hframes, replayedTo], by simp⟩
    · refine ⟨[.pushTransientBuffer session frames], by simp [hframes], rfl, fun other => ?_,
        by simp⟩
      by_cases hother : other = session
      · simp [replayedTo, hother]
      · simp [replayedTo, hother, Ne.symm hother]
  have hnone : replayedTo session p.trace = [] := by
    refine List.eq_nil_iff_forall_not_mem.mpr fun frame hframe => ?_
    obtain ⟨_, -, hevent⟩ := mem_replayedTo hframe
    have hdone := hinv.pushed_done _ _ hevent
    simp [hreplay] at hdone
  have hpushing (other : Session) (frames' : List SendCall)
      (h : Function.update p.replays session .done other = .pushing frames') :
      p.replays other = .pushing frames' := by
    have hother : other ≠ session := by rintro rfl; simp at h
    simpa [hother] using h
  rw [htrace]
  refine ⟨by simpa [hsteps] using hinv.buffers_eq, by simpa [hsteps] using hinv.clock_sorted,
    by simpa [hsteps] using hinv.clock_ge, fun other frames' h => ?_,
    fun other frames' h frame hframe => ?_, fun other frames' h => ?_, fun other => ?_,
    fun other frame h => ?_⟩
  · exact (hinv.pushing_sublist other frames' (hpushing other frames' h)).trans (by simp)
  · obtain ⟨appendTp, snapshotTp, hbefore⟩ :=
      hinv.pushing_appended other frames' (hpushing other frames' h) frame hframe
    exact ⟨appendTp, snapshotTp, hbefore.append _⟩
  · by_cases hother : other = session
    · subst hother
      simp
    · have hold : Event.pushTransientBuffer other frames' ∈ p.trace :=
        (List.mem_append.mp h).resolve_right fun hevent => hother (hpushed _ _ hevent)
      simpa [hother] using hinv.pushed_done other frames' hold
  · rw [replayedTo_append, hreplayed, appendOrder_append, appendOrder_eq_nil hsteps,
      List.append_nil]
    by_cases hother : other = session
    · subst hother
      simpa [hnone] using hinv.pushing_sublist other frames hreplay
    · simpa [hother] using hinv.replayed_sublist other
  · rw [replayedTo_append, hreplayed, List.mem_append] at h
    obtain ⟨appendTp, snapshotTp, hbefore⟩ : ∃ appendTp snapshotTp,
        Before p.trace (.append frame appendTp) (.snapshot other snapshotTp) := by
      by_cases hother : other = session
      · subst hother
        simp only [hnone, List.not_mem_nil, if_true, false_or] at h
        exact hinv.pushing_appended other frames hreplay frame h
      · simp only [hother, if_false, List.not_mem_nil, or_false] at h
        exact hinv.replayed_appended other frame h
    exact ⟨appendTp, snapshotTp, hbefore.append _⟩

variable (setting)

theorem ReplayInv.step (hinv : ReplayInv setting p) {action : Action}
    (hstep : step setting p action = some q) : ReplayInv setting q := by
  have hnone : ∀ session frames, Event.pushTransientBuffer session frames ∉ ([] : List Event) :=
    by simp
  cases action with
  | acceptComplete ok =>
      obtain ⟨_, _, rfl⟩ := acceptComplete_eq_some hstep
      exact hinv.frame [] rfl rfl rfl (List.append_nil _).symm rfl hnone
  | acceptHandler =>
      obtain ⟨_, ok, _, rfl⟩ := acceptHandler_eq_some hstep
      cases ok
      · exact hinv.frame [] rfl rfl rfl (List.append_nil _).symm rfl hnone
      · exact hinv.frame _ rfl rfl rfl rfl rfl (by simp)
  | acceptAdd =>
      obtain ⟨_, _, rfl⟩ := acceptAdd_eq_some hstep
      exact hinv.frame _ rfl rfl rfl rfl rfl (by simp)
  | acceptRearm =>
      obtain ⟨_, _, rfl⟩ := acceptRearm_eq_some hstep
      exact hinv.frame [] rfl rfl rfl (List.append_nil _).symm rfl hnone
  | close session =>
      obtain ⟨-, -, rfl⟩ := publisherSessionClosedHandler_eq_some hstep
      exact hinv.frame _ rfl rfl rfl rfl rfl (by simp)
  | sendBegin call =>
      obtain ⟨-, rfl⟩ := sendBegin_eq_some setting hstep
      exact hinv.frame [] rfl rfl rfl (List.append_nil _).symm rfl hnone
  | sendCheckEmpty call =>
      obtain ⟨-, rfl⟩ := sendCheckEmpty_eq_some hstep
      exact hinv.frame [] rfl rfl rfl (List.append_nil _).symm rfl hnone
  | sendFanOut call =>
      obtain ⟨-, rfl⟩ := sendFanOut_eq_some setting hstep
      exact hinv.frame _ rfl rfl rfl rfl (by simp [transientLocalSteps, List.filterMap_map])
        (by simp)
  | sendAppend call nowTp => exact hinv.sendAppend hstep
  | replaySnapshot session nowTp => exact hinv.replaySnapshot hstep
  | replayPush session => exact hinv.replayPush hstep
  | cancelClose call =>
      obtain ⟨-, rfl⟩ := cancelClose_eq_some hstep
      exact hinv.frame [] rfl rfl rfl (List.append_nil _).symm rfl hnone
  | cancelStop call =>
      obtain ⟨-, rfl⟩ := cancelStop_eq_some hstep
      exact hinv.frame _ rfl rfl rfl rfl rfl (by simp)
  | cancelSnapshot call =>
      obtain ⟨-, rfl⟩ := cancelSnapshot_eq_some hstep
      exact hinv.frame [] rfl rfl rfl (List.append_nil _).symm rfl hnone
  | cancelSession call =>
      obtain ⟨-, rfl⟩ | ⟨_, _, -, rfl⟩ := cancelSession_eq_some hstep
      · exact hinv.frame [] rfl rfl rfl (List.append_nil _).symm rfl hnone
      · exact hinv.frame _ rfl rfl rfl rfl rfl (by simp)

theorem Reachable.replayInv (hreach : Reachable setting p) : ReplayInv setting p := by
  induction hreach with
  | init outcome => exact replayInv_start outcome
  | step action _ hstep ih => exact ih.step setting hstep

/-- At every reachable state the publisher's buffer is the transient-local run of the critical
sections in its trace, whose clock readings never decrease and never pass the clock: the
publisher refines the model of the buffer alone. -/
theorem transientLocalBuffers_refine (hreach : Reachable setting p) :
    p.transientLocalBuffers = runTransientLocal setting (transientLocalSteps p.trace) ∧
      ((transientLocalSteps p.trace).map TransientLocalStep.nowTp).Sorted (· ≤ ·) ∧
      ∀ step ∈ transientLocalSteps p.trace, step.nowTp ≤ p.clock :=
  have hinv := hreach.replayInv setting
  ⟨hinv.buffers_eq, hinv.clock_sorted, hinv.clock_ge⟩

/-- Two sends appended at `1` and `2`, then a replay at `3`: three critical sections, of which
the buffer keeps the last frame. -/
theorem transientLocalBuffers_refine_replayed :
    ∃ q, Reachable ⟨1, 0⟩ q ∧ (transientLocalSteps q.trace).length = 3 ∧
      q.transientLocalBuffers.map TransientLocalElement.buffer = [1] ∧
      q.transientLocalBuffers = runTransientLocal ⟨1, 0⟩ (transientLocalSteps q.trace) ∧
      ((transientLocalSteps q.trace).map TransientLocalStep.nowTp).Sorted (· ≤ ·) ∧
      ∀ step ∈ transientLocalSteps q.trace, step.nowTp ≤ q.clock := by
  obtain ⟨q, hq, -, hprop⟩ := reachable_of_run ⟨1, 0⟩
    [.acceptComplete true, .acceptHandler, .acceptAdd, .sendBegin 0, .sendFanOut 0,
      .sendAppend 0 1, .sendBegin 1, .sendFanOut 1, .sendAppend 1 2, .replaySnapshot 0 3,
      .replayPush 0]
    (fun q => decide ((transientLocalSteps q.trace).length = 3 ∧
      q.transientLocalBuffers.map TransientLocalElement.buffer = [1]))
    (.init ⟨true, true, true, true, true⟩) (by decide)
  obtain ⟨hsteps, hbuffer⟩ := of_decide_eq_true hprop
  exact ⟨q, hq, hsteps, hbuffer, transientLocalBuffers_refine ⟨1, 0⟩ hq⟩

end TcpPubsub.Publisher
