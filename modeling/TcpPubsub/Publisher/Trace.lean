import TcpPubsub.Publisher.Model

/-!
# Reading the trace

What each session was handed, and in which order the calls of `send` passed their two critical
sections, are projections of the publisher's trace.  Order in the trace is sublist order of
two-element lists; on a list without duplicates it is a strict order.
-/

namespace TcpPubsub.Publisher

open TransientLocal

variable {α : Type}

/-- `first` occurs in `list` before `second`. -/
def Before (list : List α) (first second : α) : Prop := List.Sublist [first, second] list

instance [DecidableEq α] (list : List α) (first second : α) :
    Decidable (Before list first second) :=
  inferInstanceAs (Decidable (List.Sublist _ _))

theorem Before.mem_left {list : List α} {first second : α} (h : Before list first second) :
    first ∈ list := List.Sublist.subset h (List.mem_cons_self _ _)

theorem Before.mem_right {list : List α} {first second : α} (h : Before list first second) :
    second ∈ list := List.Sublist.subset h (by simp)

theorem Before.append {list : List α} {first second : α} (h : Before list first second)
    (more : List α) : Before (list ++ more) first second :=
  List.Sublist.trans h (List.sublist_append_left _ _)

theorem before_append_of_mem {list more : List α} {first second : α} (hfirst : first ∈ list)
    (hsecond : second ∈ more) : Before (list ++ more) first second :=
  List.Sublist.append (List.singleton_sublist.mpr hfirst) (List.singleton_sublist.mpr hsecond)

theorem before_cons_iff {head first second : α} {list : List α} :
    Before (head :: list) first second ↔
      Before list first second ∨ head = first ∧ second ∈ list := by
  simp only [Before, List.sublist_cons_iff, List.cons.injEq, List.singleton_sublist]
  constructor
  · rintro (h | ⟨rest, ⟨rfl, rfl⟩, h⟩)
    · exact .inl h
    · exact .inr ⟨rfl, List.singleton_sublist.mp h⟩
  · rintro (h | ⟨rfl, h⟩)
    · exact .inl h
    · exact .inr ⟨[second], ⟨rfl, rfl⟩, List.singleton_sublist.mpr h⟩

theorem before_or_before {list : List α} {first second : α} (hne : first ≠ second)
    (hfirst : first ∈ list) (hsecond : second ∈ list) :
    Before list first second ∨ Before list second first := by
  induction list with
  | nil => simp at hfirst
  | cons head list ih =>
      simp only [before_cons_iff]
      by_cases hhead : head = first
      · subst hhead
        exact .inl (.inr ⟨rfl, (List.mem_cons.mp hsecond).resolve_left (Ne.symm hne)⟩)
      by_cases hhead' : head = second
      · subst hhead'
        exact .inr (.inr ⟨rfl, (List.mem_cons.mp hfirst).resolve_left hne⟩)
      rcases ih ((List.mem_cons.mp hfirst).resolve_left (Ne.symm hhead))
          ((List.mem_cons.mp hsecond).resolve_left (Ne.symm hhead')) with h | h
      · exact .inl (.inl h)
      · exact .inr (.inl h)

theorem before_append_iff {list more : List α} {first second : α} :
    Before (list ++ more) first second ↔
      Before list first second ∨ first ∈ list ∧ second ∈ more ∨ Before more first second := by
  induction list with
  | nil => simp [Before]
  | cons head list ih =>
      simp only [List.cons_append, before_cons_iff, ih, List.mem_append, List.mem_cons,
        @eq_comm _ first, and_or_left, or_and_right, or_assoc]
      simp only [or_comm, or_left_comm, or_assoc]

/-- Events appended after `second`'s kind stops occurring change no order ending in it. -/
theorem before_append_of_not_mem {list more : List α} {first second : α}
    (hsecond : second ∉ more) : Before (list ++ more) first second ↔ Before list first second := by
  rw [before_append_iff]
  exact ⟨fun h => h.resolve_right (by rintro (⟨-, h⟩ | h); exacts [hsecond h, hsecond h.mem_right]),
    Or.inl⟩

theorem Before.filterMap {β : Type} {list : List α} {first second : α}
    (h : Before list first second) (f : α → Option β) {x y : β} (hx : f first = some x)
    (hy : f second = some y) : Before (list.filterMap f) x y := by
  simpa [hx, hy] using List.Sublist.filterMap f h

theorem Before.asymm {list : List α} {first second : α} (hnodup : list.Nodup)
    (h : Before list first second) : ¬ Before list second first := by
  induction list with
  | nil => exact absurd h.mem_left (List.not_mem_nil _)
  | cons head list ih =>
      rw [List.nodup_cons] at hnodup
      rw [before_cons_iff] at h ⊢
      rintro (h' | ⟨rfl, h'⟩)
      · rcases h with h | ⟨rfl, _⟩
        · exact ih hnodup.2 h h'
        · exact hnodup.1 h'.mem_right
      · rcases h with h | ⟨rfl, _⟩
        · exact hnodup.1 h.mem_right
        · exact hnodup.1 h'

theorem Before.trans {list : List α} {first second third : α} (hnodup : list.Nodup)
    (h₁ : Before list first second) (h₂ : Before list second third) :
    Before list first third := by
  induction list with
  | nil => exact absurd h₁.mem_left (List.not_mem_nil _)
  | cons head list ih =>
      rw [List.nodup_cons] at hnodup
      rw [before_cons_iff] at h₁ h₂ ⊢
      rcases h₁ with h₁ | ⟨rfl, h₁⟩
      · rcases h₂ with h₂ | ⟨rfl, _⟩
        · exact .inl (ih hnodup.2 h₁ h₂)
        · exact absurd h₁.mem_right hnodup.1
      · rcases h₂ with h₂ | ⟨rfl, _⟩
        · exact .inr ⟨rfl, h₂.mem_right⟩
        · exact absurd h₁ hnodup.1

/-- Two elements of a sublist of a list without duplicates keep their order. -/
theorem Before.of_sublist {small large : List α} {first second : α}
    (hsub : List.Sublist small large) (hnodup : large.Nodup) (hfirst : first ∈ small)
    (hsecond : second ∈ small) (h : Before large first second) : Before small first second := by
  have hne : first ≠ second := by
    rintro rfl
    exact h.asymm hnodup h
  exact (before_or_before hne hfirst hsecond).resolve_right fun h' =>
    h.asymm hnodup (List.Sublist.trans h' hsub)

/-! ### The trace only grows -/

variable (setting : PublisherTransientLocalSetting)

/-- The events a step appends to the trace. -/
def stepEvents (p : PublisherImpl) : Action → List Event
  | .acceptHandler =>
      match p.accept with
      | .completed session true => [.start session]
      | _ => []
  | .acceptAdd =>
      match p.accept with
      | .started session => [.add session]
      | _ => []
  | .close session => [.close session]
  | .sendFanOut call => .fanOut call :: p.sessions.map (.sendDataBuffer · call)
  | .sendAppend call nowTp => [.append call nowTp]
  | .replaySnapshot session nowTp =>
      if setting.bufferMaxCount = 0 then [] else [.snapshot session nowTp]
  | .replayPush session =>
      match p.replays session with
      | .pushing frames => if frames = [] then [] else [.pushTransientBuffer session frames]
      | _ => []
  | .cancelStop _ => [.stop]
  | .cancelSession call =>
      match p.cancels call with
      | .cancelling (session :: _) => [.cancelSession session]
      | _ => []
  | _ => []

theorem step_trace_eq {p q : PublisherImpl} {action : Action}
    (hstep : step setting p action = some q) : q.trace = p.trace ++ stepEvents setting p action := by
  cases action with
  | acceptComplete ok => obtain ⟨_, _, rfl⟩ := acceptComplete_eq_some hstep; simp [stepEvents]
  | acceptHandler =>
      obtain ⟨_, ok, haccept, rfl⟩ := acceptHandler_eq_some hstep
      cases ok <;> simp [stepEvents, haccept]
  | acceptAdd => obtain ⟨_, haccept, rfl⟩ := acceptAdd_eq_some hstep; simp [stepEvents, haccept]
  | acceptRearm => obtain ⟨_, _, rfl⟩ := acceptRearm_eq_some hstep; simp [stepEvents, acceptClient]
  | close session => obtain ⟨-, -, rfl⟩ := publisherSessionClosedHandler_eq_some hstep; rfl
  | sendBegin call => obtain ⟨-, rfl⟩ := sendBegin_eq_some setting hstep; simp [stepEvents]
  | sendCheckEmpty call => obtain ⟨-, rfl⟩ := sendCheckEmpty_eq_some hstep; simp [stepEvents]
  | sendFanOut call => obtain ⟨-, rfl⟩ := sendFanOut_eq_some setting hstep; rfl
  | sendAppend call nowTp => obtain ⟨-, -, rfl⟩ := sendAppend_eq_some setting hstep; rfl
  | replaySnapshot session nowTp =>
      obtain ⟨-, -, -, -, ⟨hcount, rfl⟩ | ⟨hcount, rfl⟩⟩ := replaySnapshot_eq_some setting hstep <;>
        simp [stepEvents, hcount]
  | replayPush session =>
      obtain ⟨frames, hreplay, rfl⟩ := replayPush_eq_some hstep
      by_cases hframes : frames = [] <;> simp [stepEvents, hreplay, hframes]
  | cancelClose call => obtain ⟨-, rfl⟩ := cancelClose_eq_some hstep; simp [stepEvents]
  | cancelStop call => obtain ⟨-, rfl⟩ := cancelStop_eq_some hstep; rfl
  | cancelSnapshot call => obtain ⟨-, rfl⟩ := cancelSnapshot_eq_some hstep; simp [stepEvents]
  | cancelSession call =>
      obtain ⟨hcancel, rfl⟩ | ⟨_, _, hcancel, rfl⟩ := cancelSession_eq_some hstep <;>
        simp [stepEvents, hcancel]

theorem step_trace_grows {p q : PublisherImpl} {action : Action}
    (hstep : step setting p action = some q) : p.trace <+: q.trace :=
  step_trace_eq setting hstep ▸ List.prefix_append _ _

theorem run_trace_grows {p q : PublisherImpl} {actions : List Action}
    (hrun : run setting p actions = some q) : p.trace <+: q.trace := by
  induction actions generalizing p with
  | nil =>
      simp only [run, Option.some.injEq] at hrun
      exact hrun ▸ List.prefix_refl _
  | cons action actions ih =>
      obtain ⟨next, hstep, hrest⟩ := Option.bind_eq_some.mp hrun
      exact (step_trace_grows setting hstep).trans (ih hrest)

/-- An order between two events, once in the trace, holds in every later state. -/
theorem Before.of_prefix {list longer : List α} {first second : α} (h : Before list first second)
    (hgrow : list <+: longer) : Before longer first second :=
  List.Sublist.trans h hgrow.sublist

/-! ### Projections of the trace -/

/-- The two critical sections of a call of `send`: the fan-out under
`publisher_sessions_mutex_`, then the append under `transient_local_mtx_`. -/
inductive SendSection
  | fanOut (call : SendCall)
  | append (call : SendCall)
  deriving DecidableEq, Repr

/-- The critical sections of the calls of `send`, in the order they ran. -/
def sendSections (trace : List Event) : List SendSection :=
  trace.filterMap fun
    | .fanOut call => some (.fanOut call)
    | .append call _ => some (.append call)
    | _ => none

def SendSection.fannedOut : SendSection → Option SendCall
  | .fanOut call => some call
  | .append _ => none

def SendSection.appended : SendSection → Option SendCall
  | .fanOut _ => none
  | .append call => some call

/-- The calls of `send` in the order of their fan-out. -/
def fanOutOrder (trace : List Event) : List SendCall :=
  (sendSections trace).filterMap SendSection.fannedOut

/-- The calls of `send` in the order of their transient-local append. -/
def appendOrder (trace : List Event) : List SendCall :=
  (sendSections trace).filterMap SendSection.appended

/-- The frames handed to `session` through `sendDataBuffer`, in order. -/
def handedTo (session : Session) (trace : List Event) : List SendCall :=
  trace.filterMap fun
    | .sendDataBuffer target call => if target = session then some call else none
    | _ => none

/-- The frames of the replay buffers handed to `session`. -/
def replayedTo (session : Session) (trace : List Event) : List SendCall :=
  trace.flatMap fun
    | .pushTransientBuffer target frames => if target = session then frames else []
    | _ => []

/-- The critical sections on `transient_local_mtx_`, in order. -/
def transientLocalSteps (trace : List Event) : List (TransientLocalStep SendCall) :=
  trace.filterMap fun
    | .append call nowTp => some (.send call nowTp)
    | .snapshot _ nowTp => some (.replay nowTp)
    | _ => none

@[simp]
theorem sendSections_append (trace events : List Event) :
    sendSections (trace ++ events) = sendSections trace ++ sendSections events :=
  List.filterMap_append _ _ _

@[simp]
theorem fanOutOrder_append (trace events : List Event) :
    fanOutOrder (trace ++ events) = fanOutOrder trace ++ fanOutOrder events := by
  simp [fanOutOrder]

@[simp]
theorem appendOrder_append (trace events : List Event) :
    appendOrder (trace ++ events) = appendOrder trace ++ appendOrder events := by
  simp [appendOrder]

@[simp]
theorem handedTo_append (session : Session) (trace events : List Event) :
    handedTo session (trace ++ events) = handedTo session trace ++ handedTo session events :=
  List.filterMap_append _ _ _

@[simp]
theorem replayedTo_append (session : Session) (trace events : List Event) :
    replayedTo session (trace ++ events) = replayedTo session trace ++ replayedTo session events :=
  List.flatMap_append _ _ _

@[simp]
theorem transientLocalSteps_append (trace events : List Event) :
    transientLocalSteps (trace ++ events) =
      transientLocalSteps trace ++ transientLocalSteps events :=
  List.filterMap_append _ _ _

/-- The appended frames with their stamps are the stamped frames of the critical sections. -/
theorem stampedFrames_transientLocalSteps (trace : List Event) :
    (stampedFrames (transientLocalSteps trace)).map TransientLocalElement.buffer =
      appendOrder trace := by
  induction trace with
  | nil => rfl
  | cons event trace ih =>
      cases event <;>
        simp_all [transientLocalSteps, appendOrder, sendSections, SendSection.appended,
          stampedFrames, List.filterMap_cons]

/-- On distinct sessions, a fan-out hands `session` the frame once if it is there. -/
theorem filterMap_sendDataBuffer {sessions : List Session} (hnodup : sessions.Nodup)
    (session : Session) (call : SendCall) :
    (sessions.map (Event.sendDataBuffer · call)).filterMap (fun
      | .sendDataBuffer target call => if target = session then some call else none
      | _ => none) = if session ∈ sessions then [call] else [] := by
  induction sessions with
  | nil => simp
  | cons head sessions ih =>
      rw [List.nodup_cons] at hnodup
      by_cases hhead : head = session
      · subst hhead
        simp [List.filterMap_cons, ih hnodup.2, hnodup.1]
      · simp [List.filterMap_cons, ih hnodup.2, hhead, Ne.symm hhead]

end TcpPubsub.Publisher
