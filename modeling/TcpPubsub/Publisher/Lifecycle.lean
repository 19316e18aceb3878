import TcpPubsub.Publisher.Ordering

/-!
# Starting and cancelling

`start` opens, configures, binds and listens on the acceptor, returning `false` at the first
step that fails; only a full success marks the publisher running and issues the first accept.
`cancel` closes the acceptor, clears `is_running_`, and cancels the sessions of a copy of the
list.  The accept handler checks neither the flag nor the acceptor, so a connection accepted
just before `cancel` is started, pushed and followed by a new accept after it.
-/

namespace TcpPubsub.Publisher

open TransientLocal

/-- On an acceptor that is already open, `start` fails at `make_address` or at the open and
leaves the publisher as it was. -/
theorem start_of_open {p : PublisherImpl} (hopen : p.acceptor ≠ .closed) (outcome : StartOutcome) :
    start outcome p =
      ⟨false, some (if outcome.makeAddress then .openAcceptor else .makeAddress), p⟩ := by
  unfold start
  by_cases hmake : outcome.makeAddress <;> simp [hmake, hopen]

/-- A `bind` that fails (the port is taken) makes `start` return `false` with the acceptor
still open, and then every later `start` fails at the open of that acceptor, whatever the
operating system answers. -/
theorem start_bind_failure_leaves_acceptor_open :
    (start ⟨true, true, true, false, true⟩ fresh).returned = false ∧
      (start ⟨true, true, true, false, true⟩ fresh).logged = some .bindAcceptor ∧
      (start ⟨true, true, true, false, true⟩ fresh).publisher.acceptor = .opened ∧
      ∀ outcome, (start outcome (start ⟨true, true, true, false, true⟩ fresh).publisher).returned =
        false ∧
        (start outcome (start ⟨true, true, true, false, true⟩ fresh).publisher).logged ≠
          some .bindAcceptor := by
  refine ⟨rfl, rfl, rfl, fun outcome => ?_⟩
  rw [start_of_open (by decide) outcome]
  exact ⟨rfl, by split <;> simp⟩

/-- `cancel` runs to its end between the completion of an accept and its handler: the handler
then starts and pushes a session after `is_running_ = false`, which no `cancel` has cancelled,
and issues a new accept. -/
theorem acceptHandler_after_cancel_adds_session :
    ∃ q, Reachable ⟨0, 0⟩ q ∧ q.isRunning = false ∧ q.cancels 0 = .done ∧
      Before q.trace .stop (.start 0) ∧ Before q.trace .stop (.add 0) ∧ 0 ∈ q.sessions ∧
      Event.cancelSession 0 ∉ q.trace ∧ q.accept = .completed 1 false := by
  obtain ⟨q, hq, -, hprop⟩ := reachable_of_run ⟨0, 0⟩
    [.acceptComplete true, .cancelClose 0, .cancelStop 0, .cancelSnapshot 0, .cancelSession 0,
      .acceptHandler, .acceptAdd, .acceptRearm]
    (fun q => decide (q.isRunning = false ∧ q.cancels 0 = .done ∧
      Before q.trace .stop (.start 0) ∧ Before q.trace .stop (.add 0) ∧ 0 ∈ q.sessions ∧
      Event.cancelSession 0 ∉ q.trace ∧ q.accept = .completed 1 false))
    (.init ⟨true, true, true, true, true⟩) (by decide)
  exact ⟨q, hq, of_decide_eq_true hprop⟩

end TcpPubsub.Publisher
