import TcpPubsub.Send

/-!
# The transient-local buffer

`transient_local_buffers_` holds frames with their enqueue time, under `transient_local_mtx_`.
Two critical sections touch it: the end of `send`, which appends the new frame and purges, and
the replay handler of a new session, which purges and snapshots.  Any interleaving of sends and
replays is a sequence of these critical sections, and the steady clock is read inside each.
-/

namespace TcpPubsub.TransientLocal

open Wire Send

/-- `PublisherTransientLocalSetting`: `buffer_max_count_` (`0` disables the feature) and
`lifespan_` in nanoseconds (not positive: no age eviction). -/
structure PublisherTransientLocalSetting where
  bufferMaxCount : ℕ
  lifespan : ℤ
  deriving DecidableEq, Repr

/-- `TransientLocalElement`: a frame and the steady-clock time it was enqueued at. -/
structure TransientLocalElement (α : Type) where
  buffer : α
  enqueueTp : ℤ
  deriving DecidableEq, Repr

variable {α : Type} (setting : PublisherTransientLocalSetting)

/-- `purgeExpiredTransientLocalBuffers`: pop the front while the list is longer than
`buffer_max_count_` or, with a positive lifespan, the front is older than the lifespan. -/
def purgeExpiredTransientLocalBuffers :
    List (TransientLocalElement α) → ℤ → List (TransientLocalElement α)
  | [], _ => []
  | front :: rest, nowTp =>
      if setting.bufferMaxCount < (front :: rest).length ∨
          (0 < setting.lifespan ∧ setting.lifespan < nowTp - front.enqueueTp) then
        purgeExpiredTransientLocalBuffers rest nowTp
      else front :: rest

/-- One critical section on `transient_local_mtx_`, with the clock reading taken inside it. -/
inductive TransientLocalStep (α : Type)
  /-- The end of `send`: append the frame, then purge. -/
  | send (buffer : α) (nowTp : ℤ)
  /-- The replay handler: purge, then snapshot. -/
  | replay (nowTp : ℤ)
  deriving DecidableEq, Repr

def TransientLocalStep.nowTp : TransientLocalStep α → ℤ
  | send _ nowTp => nowTp
  | replay nowTp => nowTp

/-- `send` enters its critical section only when `buffer_max_count_ > 0`; the replay handler
returns before its own when `buffer_max_count_ == 0`. -/
def transientLocalStep (buffers : List (TransientLocalElement α)) :
    TransientLocalStep α → List (TransientLocalElement α)
  | .send buffer nowTp =>
      if 0 < setting.bufferMaxCount then
        purgeExpiredTransientLocalBuffers setting (buffers ++ [⟨buffer, nowTp⟩]) nowTp
      else buffers
  | .replay nowTp =>
      if setting.bufferMaxCount = 0 then buffers
      else purgeExpiredTransientLocalBuffers setting buffers nowTp

def runTransientLocal (steps : List (TransientLocalStep α)) : List (TransientLocalElement α) :=
  steps.foldl (transientLocalStep setting) []

/-- The frames the run's sends stamped, in critical-section order. -/
def stampedFrames : List (TransientLocalStep α) → List (TransientLocalElement α)
  | [] => []
  | .send buffer nowTp :: steps => ⟨buffer, nowTp⟩ :: stampedFrames steps
  | .replay _ :: steps => stampedFrames steps

theorem stampedFrames_cons (step : TransientLocalStep α) (steps : List (TransientLocalStep α)) :
    stampedFrames (step :: steps) = stampedFrames [step] ++ stampedFrames steps := by
  cases step <;> rfl

/-! ### What a purge keeps -/

/-- What a purge leaves: short enough, and a front young enough. -/
def FrontFresh (nowTp : ℤ) (buffers : List (TransientLocalElement α)) : Prop :=
  buffers.length ≤ setting.bufferMaxCount ∧
    (0 < setting.lifespan → ∀ front ∈ buffers.head?, nowTp - front.enqueueTp ≤ setting.lifespan)

/-- The retention law at time `nowTp`: at most `buffer_max_count_` frames and, with a positive
lifespan, none older than it. -/
def Admissible (nowTp : ℤ) (buffers : List (TransientLocalElement α)) : Prop :=
  buffers.length ≤ setting.bufferMaxCount ∧
    (0 < setting.lifespan → ∀ element ∈ buffers, nowTp - element.enqueueTp ≤ setting.lifespan)

/-- `buffers` is the longest admissible suffix of `history`: every admissible suffix of the
history is a suffix of it (the suffixes of one list are ordered by length). -/
def IsRetainedSuffix (nowTp : ℤ) (history buffers : List (TransientLocalElement α)) : Prop :=
  buffers <:+ history ∧ Admissible setting nowTp buffers ∧
    ∀ suffix, suffix <:+ history → Admissible setting nowTp suffix → suffix <:+ buffers

/-- Stamps never decrease along the list. -/
def Ordered (buffers : List (TransientLocalElement α)) : Prop :=
  buffers.Pairwise fun earlier later => earlier.enqueueTp ≤ later.enqueueTp

theorem purge_suffix (buffers : List (TransientLocalElement α)) (nowTp : ℤ) :
    purgeExpiredTransientLocalBuffers setting buffers nowTp <:+ buffers := by
  induction buffers with
  | nil => exact List.suffix_refl _
  | cons front rest ih =>
      rw [purgeExpiredTransientLocalBuffers]
      split
      · exact ih.trans (List.suffix_cons _ _)
      · exact List.suffix_refl _

/-- The condition of the purge's `while` loop, on a non-empty list, is that the list is not
front-fresh. -/
theorem frontFresh_cons_iff {front : TransientLocalElement α} {rest : List (TransientLocalElement α)}
    {nowTp : ℤ} :
    FrontFresh setting nowTp (front :: rest) ↔
      ¬ (setting.bufferMaxCount < (front :: rest).length ∨
        (0 < setting.lifespan ∧ setting.lifespan < nowTp - front.enqueueTp)) := by
  simp only [FrontFresh, List.head?_cons, Option.mem_def, Option.some.injEq, forall_eq',
    not_or, not_and, not_lt]

/-- The `while` loop of a purge pops the front `pops` times, at most the list's length: its
condition holds before each pop and fails after the last. -/
theorem purge_pops (buffers : List (TransientLocalElement α)) (nowTp : ℤ) :
    ∃ pops ≤ buffers.length,
      purgeExpiredTransientLocalBuffers setting buffers nowTp = buffers.drop pops ∧
      (∀ popped < pops, ¬ FrontFresh setting nowTp (buffers.drop popped)) ∧
      FrontFresh setting nowTp (buffers.drop pops) := by
  induction buffers with
  | nil => exact ⟨0, le_rfl, rfl, by simp, Nat.zero_le _, by simp⟩
  | cons front rest ih =>
      rw [purgeExpiredTransientLocalBuffers]
      split
      · rename_i hpop
        obtain ⟨pops, hle, heq, hbefore, hafter⟩ := ih
        refine ⟨pops + 1, by simpa using hle, heq, fun popped hpopped => ?_, hafter⟩
        cases popped with
        | zero => exact fun hfresh => (frontFresh_cons_iff setting).mp hfresh hpop
        | succ popped => exact hbefore popped (by omega)
      · rename_i hkeep
        exact ⟨0, Nat.zero_le _, rfl, by simp, (frontFresh_cons_iff setting).mpr hkeep⟩

/-- A purge pops exactly until the list is front-fresh: it keeps the longest front-fresh
suffix, sorted or not. -/
theorem purge_longest (buffers : List (TransientLocalElement α)) (nowTp : ℤ) :
    FrontFresh setting nowTp (purgeExpiredTransientLocalBuffers setting buffers nowTp) ∧
      ∀ suffix, suffix <:+ buffers → FrontFresh setting nowTp suffix →
        suffix <:+ purgeExpiredTransientLocalBuffers setting buffers nowTp := by
  induction buffers with
  | nil =>
      refine ⟨⟨Nat.zero_le _, by simp [purgeExpiredTransientLocalBuffers]⟩,
        fun suffix hsuffix _ => ?_⟩
      rw [List.suffix_nil.mp hsuffix]
      exact List.suffix_refl _
  | cons front rest ih =>
      rw [purgeExpiredTransientLocalBuffers]
      split
      · rename_i hpop
        refine ⟨ih.1, fun suffix hsuffix hfresh => ?_⟩
        rcases List.suffix_cons_iff.mp hsuffix with rfl | hrest
        · exact absurd hpop ((frontFresh_cons_iff setting).mp hfresh)
        · exact ih.2 suffix hrest hfresh
      · exact ⟨(frontFresh_cons_iff setting).mpr ‹_›, fun suffix hsuffix _ => hsuffix⟩

variable {setting}

theorem Ordered.suffix {buffers suffix : List (TransientLocalElement α)}
    (hordered : Ordered buffers) (hsuffix : suffix <:+ buffers) : Ordered suffix :=
  hordered.sublist hsuffix.sublist

/-- On a list sorted by stamp, the front is the oldest: a fresh front means a fresh list. -/
theorem Ordered.admissible_iff {buffers : List (TransientLocalElement α)} {nowTp : ℤ}
    (hordered : Ordered buffers) :
    Admissible setting nowTp buffers ↔ FrontFresh setting nowTp buffers := by
  refine ⟨fun ⟨hlength, hage⟩ => ⟨hlength, fun hlife front hfront =>
    hage hlife front (List.mem_of_mem_head? hfront)⟩, fun ⟨hlength, hage⟩ => ⟨hlength, ?_⟩⟩
  intro hlife element helement
  cases buffers with
  | nil => simp at helement
  | cons front rest =>
      have hfront := hage hlife front rfl
      rcases List.mem_cons.mp helement with rfl | hrest
      · exact hfront
      · have := List.rel_of_pairwise_cons hordered hrest
        omega

theorem purge_retains (setting : PublisherTransientLocalSetting)
    {buffers : List (TransientLocalElement α)} (nowTp : ℤ)
    (hordered : Ordered buffers) :
    IsRetainedSuffix setting nowTp buffers
      (purgeExpiredTransientLocalBuffers setting buffers nowTp) := by
  have hsuffix := purge_suffix setting buffers nowTp
  obtain ⟨hfresh, hlongest⟩ := purge_longest setting buffers nowTp
  refine ⟨hsuffix, (hordered.suffix hsuffix).admissible_iff.mpr hfresh, ?_⟩
  intro suffix hsuf hadmissible
  exact hlongest suffix hsuf ((hordered.suffix hsuf).admissible_iff.mp hadmissible)

/-- For every list, sorted or not, every time and every setting: the purge's loop pops at most
the list's length, leaves the longest suffix with at most `buffer_max_count_` elements and, with
a positive lifespan, a front no older than it, and on a list sorted by enqueue time leaves no
element older than the lifespan. -/
theorem purgeExpiredTransientLocalBuffers_keeps_longest (setting : PublisherTransientLocalSetting)
    (buffers : List (TransientLocalElement α)) (nowTp : ℤ) :
    (∃ pops ≤ buffers.length,
      purgeExpiredTransientLocalBuffers setting buffers nowTp = buffers.drop pops ∧
      (∀ popped < pops, ¬ FrontFresh setting nowTp (buffers.drop popped)) ∧
      FrontFresh setting nowTp (buffers.drop pops)) ∧
    FrontFresh setting nowTp (purgeExpiredTransientLocalBuffers setting buffers nowTp) ∧
    (∀ suffix, suffix <:+ buffers → FrontFresh setting nowTp suffix →
      suffix <:+ purgeExpiredTransientLocalBuffers setting buffers nowTp) ∧
    (Ordered buffers → 0 < setting.lifespan →
      ∀ element ∈ purgeExpiredTransientLocalBuffers setting buffers nowTp,
        nowTp - element.enqueueTp ≤ setting.lifespan) :=
  have hlongest := purge_longest setting buffers nowTp
  ⟨purge_pops setting buffers nowTp, hlongest.1, hlongest.2,
    fun hordered hlife => (purge_retains setting nowTp hordered).2.1.2 hlife⟩

/-- Count and age eviction in one call: the count pops the oldest of three frames, then the age
pops the next, which is five units old against a lifespan of four. -/
theorem purgeExpiredTransientLocalBuffers_count_then_age :
    Ordered [⟨(), 0⟩, ⟨(), 5⟩, (⟨(), 9⟩ : TransientLocalElement Unit)] ∧
      0 < (⟨2, 4⟩ : PublisherTransientLocalSetting).lifespan ∧
      purgeExpiredTransientLocalBuffers ⟨2, 4⟩ [⟨(), 0⟩, ⟨(), 5⟩, ⟨(), 9⟩] 10 = [⟨(), 9⟩] ∧
      ∀ element ∈ purgeExpiredTransientLocalBuffers ⟨2, 4⟩
          [⟨(), 0⟩, ⟨(), 5⟩, (⟨(), 9⟩ : TransientLocalElement Unit)] 10,
        10 - element.enqueueTp ≤ 4 :=
  have hordered : Ordered [⟨(), 0⟩, ⟨(), 5⟩, (⟨(), 9⟩ : TransientLocalElement Unit)] := by
    unfold Ordered; decide
  ⟨hordered, by decide, by decide,
    (purgeExpiredTransientLocalBuffers_keeps_longest ⟨2, 4⟩ _ 10).2.2.2 hordered (by decide)⟩

/-! ### A run of critical sections -/

/-- The invariant of a run at the time of its last critical section. -/
structure Retained (setting : PublisherTransientLocalSetting) (nowTp : ℤ) (history buffers : List (TransientLocalElement α)) : Prop where
  retained : IsRetainedSuffix setting nowTp history buffers
  ordered : Ordered history
  stamped_le : ∀ element ∈ history, element.enqueueTp ≤ nowTp

theorem Admissible.earlier {buffers : List (TransientLocalElement α)} {earlierTp nowTp : ℤ}
    (hadmissible : Admissible setting nowTp buffers) (hearlier : earlierTp ≤ nowTp) :
    Admissible setting earlierTp buffers :=
  ⟨hadmissible.1, fun hlife element helement => by
    have := hadmissible.2 hlife element helement
    omega⟩

theorem Admissible.eq_nil {buffers : List (TransientLocalElement α)} {nowTp : ℤ}
    (hadmissible : Admissible setting nowTp buffers) (hzero : setting.bufferMaxCount = 0) :
    buffers = [] :=
  List.eq_nil_of_length_eq_zero (by have := hadmissible.1; omega)

theorem IsSuffix.append_singleton {suffix list : List α} (hsuffix : suffix <:+ list) (last : α) :
    suffix ++ [last] <:+ list ++ [last] := by
  obtain ⟨front, rfl⟩ := hsuffix
  exact ⟨front, by simp⟩

theorem suffix_append_singleton {suffix list : List α} {last : α}
    (hsuffix : suffix <:+ list ++ [last]) :
    suffix = [] ∨ ∃ front, suffix = front ++ [last] ∧ front <:+ list := by
  rcases List.eq_nil_or_concat suffix with rfl | ⟨front, final, rfl⟩
  · exact .inl rfl
  · obtain ⟨pre, hpre⟩ := hsuffix
    simp only [List.concat_eq_append] at hpre ⊢
    rw [← List.append_assoc] at hpre
    obtain ⟨hfront, hlast⟩ := List.append_inj' hpre rfl
    simp only [List.cons.injEq, and_true] at hlast
    exact .inr ⟨front, by rw [hlast], ⟨pre, hfront⟩⟩

/-- With the feature disabled the buffer stays empty, which is the only admissible list. -/
theorem retained_disabled {history : List (TransientLocalElement α)} {nowTp : ℤ}
    (hzero : setting.bufferMaxCount = 0) (hordered : Ordered history)
    (hstamped : ∀ element ∈ history, element.enqueueTp ≤ nowTp) :
    Retained setting nowTp history [] :=
  ⟨⟨List.nil_suffix, ⟨Nat.zero_le _, by simp⟩, fun _ _ hadmissible => by
    rw [hadmissible.eq_nil hzero]⟩, hordered, hstamped⟩

theorem Retained.send {history buffers : List (TransientLocalElement α)} {earlierTp nowTp : ℤ}
    (hretained : Retained setting earlierTp history buffers) (hearlier : earlierTp ≤ nowTp)
    (buffer : α) :
    Retained setting nowTp (history ++ [⟨buffer, nowTp⟩])
      (transientLocalStep setting buffers (.send buffer nowTp)) := by
  obtain ⟨⟨hsuffix, hadmissible, hlongest⟩, hordered, hstamped⟩ := hretained
  have hstamped' : ∀ element ∈ history ++ [⟨buffer, nowTp⟩], element.enqueueTp ≤ nowTp := by
    intro element helement
    rcases List.mem_append.mp helement with hold | hnew
    · exact (hstamped element hold).trans hearlier
    · rw [List.mem_singleton.mp hnew]
  have hordered' : Ordered (history ++ [⟨buffer, nowTp⟩]) :=
    List.pairwise_append.mpr ⟨hordered, List.pairwise_singleton _ _,
      fun element helement _ hnew => by
        rw [List.mem_singleton.mp hnew]
        exact (hstamped element helement).trans hearlier⟩
  simp only [transientLocalStep]
  split
  · have happend := IsSuffix.append_singleton hsuffix ⟨buffer, nowTp⟩
    obtain ⟨hkept, hkeptAdmissible, hkeptLongest⟩ :=
      purge_retains setting nowTp (hordered'.suffix happend)
    refine ⟨⟨hkept.trans happend, hkeptAdmissible, fun suffix hsuf hadm => ?_⟩, hordered',
      hstamped'⟩
    rcases suffix_append_singleton hsuf with rfl | ⟨front, rfl, hfront⟩
    · exact List.nil_suffix
    · have hfrontAdmissible : Admissible setting earlierTp front :=
        Admissible.earlier ⟨by have := hadm.1; simp at this; omega,
          fun hlife element helement => hadm.2 hlife element (by simp [helement])⟩ hearlier
      exact hkeptLongest _ (IsSuffix.append_singleton
        (hlongest front hfront hfrontAdmissible) _) hadm
  · rw [hadmissible.eq_nil (by omega)]
    exact retained_disabled (by omega) hordered' hstamped'

theorem Retained.replay {history buffers : List (TransientLocalElement α)} {earlierTp nowTp : ℤ}
    (hretained : Retained setting earlierTp history buffers) (hearlier : earlierTp ≤ nowTp) :
    Retained setting nowTp history (transientLocalStep setting buffers (.replay nowTp)) := by
  obtain ⟨⟨hsuffix, hadmissible, hlongest⟩, hordered, hstamped⟩ := hretained
  have hstamped' : ∀ element ∈ history, element.enqueueTp ≤ nowTp :=
    fun element helement => (hstamped element helement).trans hearlier
  simp only [transientLocalStep]
  split
  · rename_i hzero
    rw [hadmissible.eq_nil hzero]
    exact retained_disabled hzero hordered hstamped'
  · obtain ⟨hkept, hkeptAdmissible, hkeptLongest⟩ :=
      purge_retains setting nowTp (hordered.suffix hsuffix)
    exact ⟨⟨hkept.trans hsuffix, hkeptAdmissible, fun suffix hsuf hadm =>
      hkeptLongest suffix (hlongest suffix hsuf (hadm.earlier hearlier)) hadm⟩,
      hordered, hstamped'⟩

theorem Retained.step {history buffers : List (TransientLocalElement α)} {earlierTp : ℤ}
    (hretained : Retained setting earlierTp history buffers) (step : TransientLocalStep α)
    (hearlier : earlierTp ≤ step.nowTp) :
    Retained setting step.nowTp (history ++ stampedFrames [step])
      (transientLocalStep setting buffers step) := by
  cases step with
  | send buffer nowTp => exact hretained.send hearlier buffer
  | replay nowTp => simpa [stampedFrames] using hretained.replay hearlier

/-- The invariant holds after every run whose clock readings never decrease. -/
theorem Retained.run : ∀ (steps : List (TransientLocalStep α))
    {earlierTp : ℤ} {history buffers : List (TransientLocalElement α)},
    Retained setting earlierTp history buffers →
    (earlierTp :: steps.map TransientLocalStep.nowTp).Sorted (· ≤ ·) →
    Retained setting ((steps.map TransientLocalStep.nowTp).getLastD earlierTp)
      (history ++ stampedFrames steps) (steps.foldl (transientLocalStep setting) buffers)
  | [], _, _, _, hretained, _ => by simpa [stampedFrames] using hretained
  | step :: steps, _, _, _, hretained, hsorted => by
      rw [List.map_cons, List.sorted_cons] at hsorted
      have hnext := Retained.run steps (hretained.step step (hsorted.1 _ (List.mem_cons_self _ _)))
        hsorted.2
      rwa [stampedFrames_cons, ← List.append_assoc, List.map_cons, List.getLastD_cons]

theorem retained_empty (setting : PublisherTransientLocalSetting) (nowTp : ℤ) : Retained setting nowTp ([] : List (TransientLocalElement α)) [] :=
  ⟨⟨List.suffix_refl _, ⟨Nat.zero_le _, by simp⟩, fun suffix hsuffix _ => hsuffix⟩,
    List.Pairwise.nil, by simp⟩

theorem IsSuffix.getLast?_eq {suffix list : List α} (hsuffix : suffix <:+ list)
    (hne : suffix ≠ []) : suffix.getLast? = list.getLast? := by
  obtain ⟨front, rfl⟩ := hsuffix
  obtain ⟨last, hlast⟩ := Option.ne_none_iff_exists'.mp (mt List.getLast?_eq_none_iff.mp hne)
  rw [List.getLast?_append, hlast]
  rfl

/-- A send with the feature on leaves its own frame at the end of the buffer. -/
theorem runTransientLocal_ne_nil_of_send (hcount : 0 < setting.bufferMaxCount)
    {steps : List (TransientLocalStep α)} {buffer : α} {nowTp : ℤ}
    (hsend : steps.getLast? = some (.send buffer nowTp)) :
    runTransientLocal setting steps ≠ [] := by
  rw [← List.dropLast_append_getLast? _ hsend, runTransientLocal, List.foldl_append]
  simp only [List.foldl_cons, List.foldl_nil, transientLocalStep, if_pos hcount]
  have hfresh : FrontFresh setting nowTp [⟨buffer, nowTp⟩] :=
    ⟨by simpa using hcount, fun hlife front hfront => by cases hfront; simpa using hlife.le⟩
  have hkept := (purge_longest setting
    ((steps.dropLast.foldl (transientLocalStep setting) []) ++ [⟨buffer, nowTp⟩]) nowTp).2 _
    (List.suffix_append _ _) hfresh
  intro hnil
  rw [hnil] at hkept
  simp at hkept

/-- What the buffer holds after a run, at the time `nowTp` of its last critical section. -/
structure RetainedAfter (setting : PublisherTransientLocalSetting)
    (steps : List (TransientLocalStep α)) (nowTp : ℤ) : Prop where
  longest : IsRetainedSuffix setting nowTp (stampedFrames steps) (runTransientLocal setting steps)
  ordered : Ordered (runTransientLocal setting steps)
  length_le : (runTransientLocal setting steps).length ≤ setting.bufferMaxCount
  fresh : 0 < setting.lifespan →
    ∀ element ∈ runTransientLocal setting steps, nowTp - element.enqueueTp ≤ setting.lifespan
  ends_with_last : runTransientLocal setting steps ≠ [] →
    (runTransientLocal setting steps).getLast? = (stampedFrames steps).getLast?
  nonempty_after_send : 0 < setting.bufferMaxCount →
    ∀ buffer, steps.getLast? = some (.send buffer nowTp) → runTransientLocal setting steps ≠ []

/-- After any run whose clock readings never decrease, the buffer is the longest suffix of the
stamped frames that the retention law allows at the last critical section. -/
theorem runTransientLocal_retains (steps : List (TransientLocalStep α)) {nowTp : ℤ}
    (hclock : (steps.map TransientLocalStep.nowTp).Sorted (· ≤ ·))
    (hlast : (steps.map TransientLocalStep.nowTp).getLast? = some nowTp) :
    RetainedAfter setting steps nowTp := by
  obtain ⟨first, rest, rfl⟩ : ∃ first rest, steps = first :: rest := by
    cases steps with
    | nil => simp at hlast
    | cons first rest => exact ⟨first, rest, rfl⟩
  have hstart : (first.nowTp :: (first :: rest).map TransientLocalStep.nowTp).Sorted (· ≤ ·) := by
    rw [List.map_cons, List.sorted_cons] at hclock ⊢
    exact ⟨fun later hlater => (List.mem_cons.mp hlater).elim (fun h => h ▸ le_rfl)
      (hclock.1 later), List.sorted_cons.mpr hclock⟩
  have hrun := Retained.run (first :: rest) (retained_empty setting first.nowTp) hstart
  rw [List.getLastD_eq_getLast?, hlast, Option.getD_some, List.nil_append] at hrun
  obtain ⟨⟨hsuffix, hadmissible, hlongest⟩, hordered, _⟩ := hrun
  exact ⟨⟨hsuffix, hadmissible, hlongest⟩, hordered.suffix hsuffix, hadmissible.1, hadmissible.2,
    IsSuffix.getLast?_eq hsuffix, fun hcount _ hsend => runTransientLocal_ne_nil_of_send hcount hsend⟩

/-- Five sends with `buffer_max_count_ = 3` and no lifespan, then a replay: the last three
frames stay. -/
theorem runTransientLocal_retains_last_three :
    ([TransientLocalStep.send 1 0, .send 2 1, .send 3 2, .send 4 3, .send 5 4, .replay 5].map
        TransientLocalStep.nowTp).Sorted (· ≤ ·) ∧
      ([TransientLocalStep.send 1 0, .send 2 1, .send 3 2, .send 4 3, .send 5 4, .replay 5].map
        TransientLocalStep.nowTp).getLast? = some 5 ∧
      RetainedAfter ⟨3, 0⟩
        [TransientLocalStep.send 1 0, .send 2 1, .send 3 2, .send 4 3, .send 5 4, .replay 5] 5 :=
  have hclock : ([TransientLocalStep.send 1 0, .send 2 1, .send 3 2, .send 4 3, .send 5 4,
      .replay 5].map TransientLocalStep.nowTp).Sorted (· ≤ ·) := by decide
  have hlast : ([TransientLocalStep.send 1 0, .send 2 1, .send 3 2, .send 4 3, .send 5 4,
      .replay 5].map TransientLocalStep.nowTp).getLast? = some 5 := rfl
  ⟨hclock, hlast, runTransientLocal_retains _ hclock hlast⟩

/-- A replay after every frame has aged past the lifespan empties the buffer although a frame
was enqueued and the feature is on. -/
theorem runTransientLocal_late_replay_empties :
    runTransientLocal ⟨1, 1⟩ [.send () 0, .replay 5] = [] ∧
      stampedFrames [TransientLocalStep.send () 0, .replay 5] = [⟨(), 0⟩] := by
  decide

/-! ### The replay handler -/

theorem mem_stampedFrames {steps : List (TransientLocalStep α)}
    {element : TransientLocalElement α} (helement : element ∈ stampedFrames steps) :
    TransientLocalStep.send element.buffer element.enqueueTp ∈ steps := by
  induction steps with
  | nil => simp [stampedFrames] at helement
  | cons step steps ih =>
      rw [stampedFrames_cons, List.mem_append] at helement
      rcases helement with hstep | hrest
      · cases step with
        | send buffer nowTp =>
            simp only [stampedFrames, List.mem_singleton] at hstep
            subst hstep
            exact List.mem_cons_self _ _
        | replay nowTp => simp [stampedFrames] at hstep
      · exact List.mem_cons_of_mem _ (ih hrest)

/-- With the feature on, the buffer is always a suffix of the stamped frames. -/
theorem foldl_suffix_stampedFrames (hcount : 0 < setting.bufferMaxCount) :
    ∀ (steps : List (TransientLocalStep α)) {history buffers : List (TransientLocalElement α)},
      buffers <:+ history →
      steps.foldl (transientLocalStep setting) buffers <:+ history ++ stampedFrames steps
  | [], _, _, hsuffix => by simpa [stampedFrames] using hsuffix
  | step :: steps, history, buffers, hsuffix => by
      rw [stampedFrames_cons, ← List.append_assoc, List.foldl_cons]
      apply foldl_suffix_stampedFrames hcount steps
      cases step with
      | send buffer nowTp =>
          simp only [transientLocalStep, if_pos hcount, stampedFrames]
          exact (purge_suffix setting _ nowTp).trans (IsSuffix.append_singleton hsuffix _)
      | replay nowTp =>
          simp only [transientLocalStep, if_neg (Nat.pos_iff_ne_zero.mp hcount), stampedFrames,
            List.append_nil]
          exact (purge_suffix setting _ nowTp).trans hsuffix

end TcpPubsub.TransientLocal
