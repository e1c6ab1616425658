import TracingHeap.Proofs.Purge.Pieces

namespace TracingHeap

/-- No class asks its objects whether they are ready. -/
def Schema.Prompt (s : Schema) : Prop := ∀ id, (s.lifecycle id).readiness = none

theorem Schema.Prompt.patient {s : Schema} (hs : s.Prompt) : s.Patient := by
  intro id f hf
  rw [hs id] at hf
  cases hf

namespace Routing

variable {s : Schema} {r r' : Routing}

theorem Move.parked (hm : Move s r r') (hs : s.Prompt) (hr : r.parked = #[]) : r'.parked = #[] := by
  cases hm with
  | pass | look => exact hr
  | @destroy q o _ _ _ _ _ ha =>
    calc (q.finish o (s.lifecycle o.classId)).parked = q.parked := (finish_frame ..).2.1
      _ = (r.begin o (s.lifecycle o.classId)).parked := (ask_frame ha).2.2.1
      _ = r.parked := (begin_frame ..).2.1
      _ = #[] := hr
  | @park q o _ _ _ _ _ ha | @wait q o _ _ _ _ _ _ ha =>
    obtain ⟨f, hf⟩ := readiness_of_waiting ha
    rw [hs o.classId] at hf
    cases hf
  | release hi =>
    rw [hr] at hi
    simp at hi

/-- Nothing is ever parked. -/
theorem Moves.parked (hm : Moves s r r') (hs : s.Prompt) (hr : r.parked = #[]) :
    r'.parked = #[] := by
  induction hm with
  | refl => exact hr
  | tail _ hlast ih => exact hlast.parked hs ih

end Routing

namespace PurgeState

variable {s : Schema} {p q : PurgeState} {progress : Progress}

theorem Routes.parked (hq : Routes s p q) (hs : s.Prompt) (hp : p.purge.parked = #[]) :
    q.purge.parked = #[] := by
  have hplaced := (p.purge.placeCursor_frame p.table).2.2.1.trans hp
  rcases hq.cases with ⟨-, rfl⟩ | ⟨-, r, hmoves, hrests⟩
  · exact hplaced
  · rw [hrests.parked]
    exact Routing.Moves.parked hmoves hs hplaced

theorem Ran.parked (hr : Ran s p progress q) (hs : s.Prompt) (hp : p.purge.parked = #[]) :
    q.purge.parked = #[] := by
  cases hr with
  | idle => exact hp
  | routed _ hq => exact hq.parked hs hp
  | @swept r _ _ _ _ hq _ hw =>
    rw [hw.purge]
    exact (r.purge.placeCursor_frame r.table).2.2.1.trans (hq.parked hs hp)
  | @done r _ _ _ _ hq _ hw =>
    change (Purge.reset _).parked = _
    rw [hw.purge]
    exact (r.purge.placeCursor_frame r.table).2.2.1.trans (hq.parked hs hp)

theorem Routes.capacity (hq : Routes s p q) : q.table.capacity = p.table.capacity := by
  rcases hq.cases with ⟨-, rfl⟩ | ⟨-, r, hmoves, hrests⟩
  · rfl
  · rw [hrests.table]
    exact (Routing.Moves.annotates hmoves).capacity

/-- The number of slots stays the same in a purge. -/
theorem Ran.capacity (hr : Ran s p progress q) : q.table.capacity = p.table.capacity := by
  cases hr with
  | idle => rfl
  | routed _ hq => exact hq.capacity
  | swept _ hq _ hw =>
    rw [hw.table]
    exact hw.clears.capacity.trans hq.capacity
  | done _ hq _ hw =>
    rw [hw.table]
    exact hw.clears.capacity.trans hq.capacity

/-- A number of calls that is enough for a purge without objects to wait for. Before the second phase
each slot of the table may take a call of its own once more, and the first phase one to find that it is
over. -/
def callsLeft (p : PurgeState) : Nat :=
  if p.purge.routed then p.left + 1 else p.left + p.table.capacity + 2

/-- A call that is cut off leaves fewer calls to be made. -/
theorem callsLeft_lt (hb : Before s q p) (hparked : p.purge.parked = #[])
    (hcap : q.table.capacity = p.table.capacity) : q.callsLeft < p.callsLeft := by
  have hle : q.left ≤ p.table.capacity := hcap ▸ Nat.sub_le ..
  rcases hb with ⟨hp, hq⟩ | ⟨hsame, hleft | ⟨-, hdebt⟩⟩
  · simp only [callsLeft, hp, hq, if_true]
    simp
    omega
  · unfold callsLeft
    rw [hsame, hcap]
    split <;> omega
  · have hnone : p.routing.parked = #[] := (p.purge.placeCursor_frame p.table).2.2.1.trans hparked
    have : p.routing.debt s = 0 := by simp [Routing.debt, hnone]
    omega

end PurgeState

namespace Collector

variable {c f : Collector}

/-- The calls of a purge without objects to wait for that have all been cut off. -/
theorem calls_lt_of_purgeAll {deadlines : List (Option Deadline)} : ∀ {c : Collector}
    {calls : List Progress} {n : Nat}, c.Standing → c.schema.Prompt → c.purge.parked = #[] →
      c.purgeAll deadlines = .ok (calls, f) →
      calls.map (·.completed) = .replicate n false ++ [true] → n < c.pending.callsLeft := by
  induction deadlines with
  | nil =>
    intro c calls n _ _ _ hcalls hend
    cases hcalls
    simp at hend
  | cons deadline rest ih =>
    intro c calls n hs hp hparked hcalls hend
    obtain ⟨progress, d, others, hfirst, hrest, rfl⟩ := purgeAll_cons_iff.mp hcalls
    obtain ⟨p, hrun, rfl⟩ := runPurge_ok hfirst
    obtain ⟨hran, -, hbefore⟩ := PurgeState.ran_of_run (p := c.pending) hs hrun
    cases n with
    | zero =>
      unfold PurgeState.callsLeft
      split <;> omega
    | succ n =>
      rw [List.map_cons, List.replicate_succ, List.cons_append, List.cons.injEq] at hend
      have hnext := (hbefore hp.patient).resolve_left (by simp [hend.1])
      have hless := PurgeState.callsLeft_lt hnext hparked hran.capacity
      have hlater : n < p.callsLeft :=
        ih (c := c.movedOn p) (hran.stands hs) hp (hran.parked hp hparked) hrest hend.2
      omega

def stepDeadline (limit : Option Duration) (clocks : Clocks) (i : Nat) : Option Deadline :=
  limit.map (Deadline.after · (clocks.step i))

/-- Steps follow the calls of a purge until one completes it. -/
theorem purgeStepsFrom_of_purgeAll {limit : Option Duration} {clocks : Clocks} {n : Nat} :
    ∀ {i : Nat} {c : Collector} {calls : List Progress} {most : Nat}, n < most →
      c.purgeAll ((List.range' i (n + 1)).map (stepDeadline limit clocks)) = .ok (calls, f) →
      calls.map (·.completed) = .replicate n false ++ [true] →
      purgeStepsFrom limit clocks i most c = .ok (calls.map (·.purged), true, f) := by
  induction n with
  | zero =>
    intro i c calls most hmost hcalls hend
    obtain ⟨progress, d, others, hfirst, hrest, rfl⟩ := purgeAll_cons_iff.mp hcalls
    cases hrest
    obtain ⟨most, rfl⟩ : ∃ k, most = k + 1 := ⟨most - 1, by omega⟩
    have hdone : progress.completed = true := by simpa using hend
    unfold purgeStepsFrom purgeFor
    change (c.runPurge (stepDeadline limit clocks i) >>= _) = _
    rw [hfirst]
    simp [hdone, bind, Except.bind, pure, Except.pure]
  | succ n ih =>
    intro i c calls most hmost hcalls hend
    rw [List.range'_succ, List.map_cons] at hcalls
    obtain ⟨progress, d, others, hfirst, hrest, rfl⟩ := purgeAll_cons_iff.mp hcalls
    obtain ⟨most, rfl⟩ : ∃ k, most = k + 1 := ⟨most - 1, by omega⟩
    rw [List.map_cons, List.replicate_succ, List.cons_append, List.cons.injEq] at hend
    have hlater : purgeStepsFrom limit clocks (i + 1) most d = .ok (others.map (·.purged), true, f) :=
      ih (by omega) hrest hend.2
    unfold purgeStepsFrom purgeFor
    change (c.runPurge (stepDeadline limit clocks i) >>= _) = _
    rw [hfirst]
    simp [hend.1, hlater, bind, Except.bind, pure, Except.pure]

/-- What the calls of a purge leave was reached if what they began with was. -/
theorem reached_of_purgeAll {deadlines : List (Option Deadline)} : ∀ {c : Collector}
    {calls : List Progress}, Reached c → c.purgeAll deadlines = .ok (calls, f) → Reached f := by
  induction deadlines with
  | nil =>
    intro c calls hr hcalls
    cases hcalls
    exact hr
  | cons deadline rest ih =>
    intro c calls hr hcalls
    obtain ⟨progress, d, others, hfirst, hrest, rfl⟩ := purgeAll_cons_iff.mp hcalls
    have hcall : c.perform (.purge deadline) = .ok (.purged progress, d) := by
      change (c.runPurge deadline >>= _) = _
      rw [hfirst]
      rfl
    have hallowed : (Operation.purge deadline).Allowed c := trivial
    exact ih (hr.step hallowed hcall) hrest

/-- The calls of a purge spare what is not flagged. -/
theorem purged_of_purgeAll {deadlines : List (Option Deadline)} : ∀ {c : Collector}
    {calls : List Progress}, c.Sound → c.purgeAll deadlines = .ok (calls, f) → c.Purged f := by
  induction deadlines with
  | nil =>
    intro c calls hc hcalls
    cases hcalls
    exact .refl hc
  | cons deadline rest ih =>
    intro c calls hc hcalls
    obtain ⟨progress, d, others, hfirst, hrest, rfl⟩ := purgeAll_cons_iff.mp hcalls
    have hd := (runPurge_spec hc deadline).ok hfirst
    have hf := ih hd.sound hrest
    exact ⟨hd.spares.trans hf.spares, hf.schema.trans hd.schema, hf.clusters.trans hd.clusters,
      hf.settings.trans hd.settings, hf.sound⟩

/-- A purge in which no object is waited for comes to its end within the steps that the slots allow,
however far its clock lets each step get. -/
theorem purgeSteps_ends (hr : Reached c) (hp : c.schema.Prompt) (hreq : c.purge.required = true)
    (hout : c.pending.Outside) (hparked : c.purge.parked = #[]) (limit : Option Duration)
    (clocks : Clocks) {most : Nat} (hmost : c.pending.callsLeft ≤ most) :
    ∃ freed f, purgeSteps limit clocks most c = .ok (freed, true, f) ∧
      freed.sum = c.pending.remaining ∧ c.Ended f ∧ Reached f ∧ c.Purged f := by
  obtain ⟨n, calls, f, hcalls, hend, hsum, hended⟩ :=
    purgeAll_ends hr.standing hp.patient hreq hout (stepDeadline limit clocks)
  have hfew := calls_lt_of_purgeAll hr.standing hp hparked hcalls hend
  have hsteps := hcalls
  rw [List.range_eq_range'] at hsteps
  exact ⟨_, f, purgeStepsFrom_of_purgeAll (by omega) hsteps hend, hsum, hended,
    reached_of_purgeAll hr hcalls, purged_of_purgeAll hr.sound hcalls⟩

end Collector

end TracingHeap
