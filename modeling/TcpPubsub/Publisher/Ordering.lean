import TcpPubsub.Publisher.Replay

/-!
# Fan-out order, append order and what a session is handed

`send` hands its frame to the sessions under `publisher_sessions_mutex_` and appends it to
`transient_local_buffers_` later, under `transient_local_mtx_`.  Between the two a second call
can overtake, so the buffer, and every replay, follows the order of the appends, which agrees
with the fan-out order only for calls whose critical sections did not interleave.  A session is
handed frames both by the fan-out, once it is in the list, and by its replay, once its
handshake is done: each frame at most twice, once for each way that carried it.  A frame fanned
out between the two goes to it both ways unless the purge at the snapshot has evicted it.
-/

namespace TcpPubsub.Publisher

open TransientLocal

variable (setting : PublisherTransientLocalSetting) {p : PublisherImpl}

theorem SendInv.appendOrder_nodup (hinv : SendInv p) : (appendOrder p.trace).Nodup :=
  hinv.nodup.filterMap fun first second call hfirst hsecond => by
    cases first <;> cases second <;> simp_all [SendSection.appended]

/-- With the feature on, the buffer holds the latest appended frames, in append order. -/
theorem ReplayInv.buffer_suffix (hinv : ReplayInv setting p) (hcount : 0 < setting.bufferMaxCount) :
    p.transientLocalBuffers.map TransientLocalElement.buffer <:+ appendOrder p.trace := by
  rw [hinv.buffers_eq, ← stampedFrames_transientLocalSteps]
  exact List.IsSuffix.map _ (by
    simpa using foldl_suffix_stampedFrames hcount (transientLocalSteps p.trace) (List.suffix_refl []))

/-- Where the buffer and the replays stand against the calls' two critical sections. -/
structure AppendOrdered (p : PublisherImpl) : Prop where
  /-- The buffer holds the latest appended frames, in append order. -/
  buffer_suffix : p.transientLocalBuffers.map TransientLocalElement.buffer <:+ appendOrder p.trace
  /-- Every replay is in append order. -/
  replayed : ∀ session, List.Sublist (replayedTo session p.trace) (appendOrder p.trace)
  /-- A call whose append ran before another's fan-out was fanned out first... -/
  fanOut_before : ∀ first second,
    Before (sendSections p.trace) (.append first) (.fanOut second) →
      Before (fanOutOrder p.trace) first second
  /-- ...and, once the other has appended, appended first. -/
  append_before : ∀ first second,
    Before (sendSections p.trace) (.append first) (.fanOut second) →
      SendSection.append second ∈ sendSections p.trace → Before (appendOrder p.trace) first second

/-- With the feature on, over every interleaving the buffer and every replay follow the order of
the appends, and appends and fan-outs come in one order for any two calls whose critical
sections did not interleave. -/
theorem transientLocalBuffers_appendOrdered (hcount : 0 < setting.bufferMaxCount)
    (hreach : Reachable setting p) : AppendOrdered p := by
  have hsend := hreach.sendInv setting
  have hreplay := hreach.replayInv setting
  refine ⟨hreplay.buffer_suffix setting hcount, hreplay.replayed_sublist,
    fun first second h => ?_, fun first second h hsecond => ?_⟩
  · have hfirst := hsend.fanOut_before_append first h.mem_left
    exact (hfirst.trans hsend.nodup h).filterMap SendSection.fannedOut rfl rfl
  · have hsecond := hsend.fanOut_before_append second hsecond
    exact (h.trans hsend.nodup hsecond).filterMap SendSection.appended rfl rfl

/-- Call `1` appends before call `0` though it fanned out after it: the buffer follows the
appends. -/
theorem transientLocalBuffers_appendOrdered_overtaken :
    0 < (⟨2, 0⟩ : PublisherTransientLocalSetting).bufferMaxCount ∧
      ∃ q, Reachable ⟨2, 0⟩ q ∧ fanOutOrder q.trace = [0, 1] ∧
        q.transientLocalBuffers.map TransientLocalElement.buffer = [1, 0] ∧ AppendOrdered q := by
  obtain ⟨q, hq, -, hprop⟩ := reachable_of_run ⟨2, 0⟩
    [.acceptComplete true, .acceptHandler, .acceptAdd, .sendBegin 0, .sendBegin 1,
      .sendFanOut 0, .sendFanOut 1, .sendAppend 1 0, .sendAppend 0 0]
    (fun q => decide (fanOutOrder q.trace = [0, 1] ∧
      q.transientLocalBuffers.map TransientLocalElement.buffer = [1, 0]))
    (.init ⟨true, true, true, true, true⟩) (by decide)
  obtain ⟨hfanOut, hbuffer⟩ := of_decide_eq_true hprop
  exact ⟨by decide, q, hq, hfanOut, hbuffer,
    transientLocalBuffers_appendOrdered ⟨2, 0⟩ (by decide) hq⟩

/-- Two sends overtake between their critical sections: the live session is handed call `0`'s
frame and then call `1`'s, but the buffer, and the session that joins afterwards, get them the
other way round. -/
theorem sendAppend_overtakes_fanOut :
    ∃ q, Reachable ⟨2, 0⟩ q ∧ fanOutOrder q.trace = [0, 1] ∧ handedTo 0 q.trace = [0, 1] ∧
      q.transientLocalBuffers.map TransientLocalElement.buffer = [1, 0] ∧
      replayedTo 1 q.trace = [1, 0] := by
  obtain ⟨q, hq, -, hprop⟩ := reachable_of_run ⟨2, 0⟩
    [.acceptComplete true, .acceptHandler, .acceptAdd, .acceptRearm, .sendBegin 0, .sendBegin 1,
      .sendFanOut 0, .sendFanOut 1, .sendAppend 1 0, .sendAppend 0 0, .acceptComplete true,
      .acceptHandler, .acceptAdd, .replaySnapshot 1 0, .replayPush 1]
    (fun q => decide (fanOutOrder q.trace = [0, 1] ∧ handedTo 0 q.trace = [0, 1] ∧
      q.transientLocalBuffers.map TransientLocalElement.buffer = [1, 0] ∧
      replayedTo 1 q.trace = [1, 0]))
    (.init ⟨true, true, true, true, true⟩) (by decide)
  exact ⟨q, hq, of_decide_eq_true hprop⟩

/-! ### What one session is handed -/

/-- Every frame handed to `session`, by the fan-out or inside its replay buffer, in order. -/
def deliveredTo (session : Session) (trace : List Event) : List SendCall :=
  trace.flatMap fun
    | .sendDataBuffer target call => if target = session then [call] else []
    | .pushTransientBuffer target frames => if target = session then frames else []
    | _ => []

open List in
theorem deliveredTo_perm (session : Session) (trace : List Event) :
    (deliveredTo session trace).Perm (handedTo session trace ++ replayedTo session trace) := by
  induction trace with
  | nil => rfl
  | cons event trace ih =>
      have hevent : deliveredTo session [event] =
          handedTo session [event] ++ replayedTo session [event] := by
        cases event <;> try rfl
        all_goals
          rename_i target _
          by_cases htarget : target = session <;> simp [deliveredTo, handedTo, replayedTo, htarget]
      rw [← List.singleton_append, handedTo_append, replayedTo_append]
      calc deliveredTo session ([event] ++ trace)
          = handedTo session [event] ++ (replayedTo session [event] ++ deliveredTo session trace) := by
            rw [deliveredTo, List.flatMap_append, ← deliveredTo, ← deliveredTo, hevent,
              List.append_assoc]
        _ ~ handedTo session [event] ++ (replayedTo session [event] ++
              (handedTo session trace ++ replayedTo session trace)) :=
            (ih.append_left _).append_left _
        _ ~ handedTo session [event] ++
              (handedTo session trace ++ (replayedTo session [event] ++ replayedTo session trace)) :=
            (List.perm_append_comm_assoc _ _ _).append_left _
        _ = _ := by simp only [List.append_assoc]

/-- What a session is handed over every interleaving of sends with its accept, handshake and
replay. -/
structure SessionDelivery (p : PublisherImpl) (session : Session) : Prop where
  /-- The session is handed the fan-out's frames and its replay buffer's frames, together. -/
  perm : (deliveredTo session p.trace).Perm (handedTo session p.trace ++ replayedTo session p.trace)
  handed_nodup : (handedTo session p.trace).Nodup
  handed_ordered : List.Sublist (handedTo session p.trace) (fanOutOrder p.trace)
  replayed_nodup : (replayedTo session p.trace).Nodup
  replayed_ordered : List.Sublist (replayedTo session p.trace) (appendOrder p.trace)
  /-- A frame reaches the session by the fan-out only after its push into the list... -/
  handed_after_add : ∀ frame ∈ handedTo session p.trace,
    Before p.trace (.add session) (.sendDataBuffer session frame)
  /-- ...and by the replay only if it was appended before the replay's snapshot. -/
  replayed_before_snapshot : ∀ frame ∈ replayedTo session p.trace,
    ∃ nowTp snapshotTp, Before p.trace (.append frame nowTp) (.snapshot session snapshotTp)
  /-- So a frame reaches the session at most twice: once if a fan-out handed it, once if the
  replay buffer held it. -/
  count_eq : ∀ frame, (deliveredTo session p.trace).count frame =
    (if frame ∈ handedTo session p.trace then 1 else 0) +
      (if frame ∈ replayedTo session p.trace then 1 else 0)

theorem session_delivery (hreach : Reachable setting p) (session : Session) :
    SessionDelivery p session := by
  have hsend := hreach.sendInv setting
  have hreplay := hreach.replayInv setting
  have hperm := deliveredTo_perm session p.trace
  have hhanded := hsend.fanOutOrder_nodup.sublist (hsend.handed_sublist session)
  have hreplayed := hsend.appendOrder_nodup.sublist (hreplay.replayed_sublist session)
  refine ⟨hperm, hhanded, hsend.handed_sublist session, hreplayed,
    hreplay.replayed_sublist session, hsend.handed_after_add session,
    hreplay.replayed_appended session, fun frame => ?_⟩
  rw [hperm.count_eq, List.count_append, List.count_eq_of_nodup hhanded,
    List.count_eq_of_nodup hreplayed]

/-- With room for one frame: frame `0` is handed to session `0` after its push and appended
before its snapshot, but frame `1`'s append evicts it first, so it comes once while frame `1`
comes twice. -/
theorem session_delivery_evicted_once :
    ∃ q, Reachable ⟨1, 0⟩ q ∧ deliveredTo 0 q.trace = [0, 1, 1] ∧
      Before q.trace (.add 0) (.sendDataBuffer 0 0) ∧
      Before q.trace (.append 0 0) (.snapshot 0 0) ∧ SessionDelivery q 0 := by
  obtain ⟨q, hq, -, hprop⟩ := reachable_of_run ⟨1, 0⟩
    [.acceptComplete true, .acceptHandler, .acceptAdd, .sendBegin 0, .sendFanOut 0,
      .sendAppend 0 0, .sendBegin 1, .sendFanOut 1, .sendAppend 1 0, .replaySnapshot 0 0,
      .replayPush 0]
    (fun q => decide (deliveredTo 0 q.trace = [0, 1, 1] ∧
      Before q.trace (.add 0) (.sendDataBuffer 0 0) ∧
      Before q.trace (.append 0 0) (.snapshot 0 0)))
    (.init ⟨true, true, true, true, true⟩) (by decide)
  obtain ⟨hdelivered, hadded, happended⟩ := of_decide_eq_true hprop
  exact ⟨q, hq, hdelivered, hadded, happended, session_delivery ⟨1, 0⟩ hq 0⟩

/-- A send fanned out after session `0` is pushed but appended before its replay snapshot
reaches it twice: once by the fan-out and once inside the replay buffer. -/
theorem replay_repeats_fanned_out_frame :
    ∃ q, Reachable ⟨1, 0⟩ q ∧ fanOutOrder q.trace = [0] ∧ deliveredTo 0 q.trace = [0, 0] := by
  obtain ⟨q, hq, -, hprop⟩ := reachable_of_run ⟨1, 0⟩
    [.acceptComplete true, .acceptHandler, .acceptAdd, .sendBegin 0, .sendFanOut 0,
      .sendAppend 0 0, .replaySnapshot 0 0, .replayPush 0]
    (fun q => decide (fanOutOrder q.trace = [0] ∧ deliveredTo 0 q.trace = [0, 0]))
    (.init ⟨true, true, true, true, true⟩) (by decide)
  exact ⟨q, hq, of_decide_eq_true hprop⟩

end TcpPubsub.Publisher
