import TracingHeap.Proofs.Purge.Call

namespace TracingHeap

namespace PurgeState

variable {s : Schema} {deadline : Option Deadline} {p q f : PurgeState} {progress : Progress}

inductive Ran (s : Schema) (p : PurgeState) : Progress → PurgeState → Prop where
  /-- No purge is pending. -/
  | idle : p.purge.required = false → Ran s p ⟨0, true⟩ p
  /-- The call is cut off before the second phase. -/
  | routed {q : PurgeState} : p.purge.required = true → Routes s p q → Ran s p ⟨0, false⟩ q
  /-- The call is cut off in the second phase. -/
  | swept {q f : PurgeState} {w : Sweep} {looks : Nat} : p.purge.required = true → Routes s p q →
      q.purge.routed = true → Sweeps looks q f false w → Ran s p ⟨w.freed, false⟩ f
  /-- The call comes to the end of the second phase. -/
  | done {q f : PurgeState} {w : Sweep} {looks : Nat} : p.purge.required = true → Routes s p q →
      q.purge.routed = true → Sweeps looks q f true w →
      Ran s p ⟨w.freed, true⟩ { f with purge := f.purge.reset }

theorem before_wf (s : Schema) : WellFounded (Before s) := by
  let rank : PurgeState → Nat × Nat × Nat :=
    fun p => (if p.purge.routed then 0 else 1, p.left, p.routing.debt s)
  refine Subrelation.wf (r := InvImage (Prod.Lex (· < ·) (Prod.Lex (· < ·) (· < ·))) rank) ?_
    (InvImage.wf rank (Prod.lex Nat.lt_wfRel (Prod.lex Nat.lt_wfRel Nat.lt_wfRel)).wf)
  rintro f p (⟨hp, hf⟩ | ⟨hsame, hleft | ⟨hleft, hdebt⟩⟩)
  · apply Prod.Lex.left
    simp [hp, hf]
  · simp only [InvImage, rank, hsame]
    exact .right _ (.left _ _ hleft)
  · simp only [InvImage, rank, hsame, hleft]
    exact .right _ (.right _ hdebt)

theorem Sweeps.before {looks : Nat} {w : Sweep} (hw : Sweeps looks q f false w)
    (hrouted : q.purge.routed = true) (hq : Routes s p q) : Before s f p := by
  obtain ⟨-, hsame, -, -, hrewind⟩ := q.purge.placeCursor_frame q.table
  have hf : f.purge.routed = true := by
    rw [hw.purge]
    exact hsame.trans hrouted
  rcases hq.cases with ⟨hp, rfl⟩ | ⟨hp, -⟩
  · refine .inr ⟨hf.trans hp.symm, .inl ?_⟩
    have hgains := hw.gains.resolve_left nofun
    have hcursor : (f.purge.placeCursor f.table).cursor = w.cursor := by
      rw [Purge.placeCursor_resume (by rw [hw.purge]; exact hrewind), hw.purge]
    have hcap : f.table.capacity = p.table.capacity := by
      rw [hw.table]
      exact hw.clears.capacity
    rw [Purge.placeCursor_resume (p.purge.placeCursor_frame p.table).2.2.2.2] at hgains
    change f.table.capacity - (f.purge.placeCursor f.table).cursor < _
    rw [hcursor, hcap]
    exact hgains
  · exact .inl ⟨hp, hf⟩

/-- What a call does, if it comes back. -/
theorem ran_of_run (hp : p.purge.Stands p.table) (hok : run s deadline p = .ok (progress, f)) :
    Ran s p progress f ∧ (deadline = none → progress.completed = true) ∧
      (s.Patient → progress.completed = true ∨ Before s f p) := by
  cases hreq : p.purge.required with
  | false =>
    rw [run_idle hreq] at hok
    cases hok
    exact ⟨.idle hreq, fun _ => rfl, fun _ => .inl rfl⟩
  | true =>
    rw [run_eq hreq] at hok
    obtain ⟨⟨cut, looks, q⟩, hfirst, hlate⟩ := except_bind_ok hok
    obtain ⟨⟨ended, g⟩, hsecond, hend⟩ := except_bind_ok hlate
    have hend : (⟨⟨g.purge.purged - p.purge.purged, ended⟩,
        if ended then { g with purge := g.purge.reset } else g⟩ : Progress × PurgeState) =
        (progress, f) := Except.ok.inj hend
    obtain ⟨hroutes, hnone, hbefore⟩ := firstPhase_routes hp hreq hfirst
    have hq := hroutes.stands hp hreq
    by_cases hgo : (q.purge.routed && !cut) = true
    · obtain ⟨hrouted, hcut⟩ := Bool.and_eq_true_iff.mp hgo
      rw [Bool.not_eq_true'] at hcut
      subst hcut
      obtain ⟨ended', g', w, hsecond', hsweeps, hfull⟩ :=
        secondPhase_sweeps hq hroutes.required hrouted deadline looks
      rw [hsecond] at hsecond'
      cases hsecond'
      have hfreed : g.purge.purged - p.purge.purged = w.freed := by
        rw [hsweeps.purge, ← hroutes.purged]
        exact Nat.add_sub_cancel_left _ _
      rw [hfreed] at hend
      cases ended with
      | true =>
        cases hend
        exact ⟨.done hreq hroutes hrouted hsweeps, fun _ => rfl, fun _ => .inl rfl⟩
      | false =>
        cases hend
        exact ⟨.swept hreq hroutes hrouted hsweeps, fun hd => absurd (hfull hd) nofun,
          fun _ => .inr (hsweeps.before hrouted hroutes)⟩
    · have hstay : ended = false ∧ g = q := by
        unfold secondPhase at hsecond
        rw [if_neg hgo] at hsecond
        cases hsecond
        exact ⟨rfl, rfl⟩
      obtain ⟨rfl, rfl⟩ := hstay
      have hfreed : g.purge.purged - p.purge.purged = 0 := by
        rw [hroutes.purged, Nat.sub_self]
      rw [hfreed] at hend
      cases hend
      have hnot : ¬ (cut = false ∧ g.purge.routed = true) := fun h => hgo (by rw [h.1, h.2]; rfl)
      exact ⟨.routed hreq hroutes, fun hd => absurd (hnone hd) hnot,
        fun hs => .inr ((hbefore hs).resolve_left hnot)⟩

/-- If no object is waited for without end, every call comes back. One with a deadline does in any
case. -/
theorem run_ok (deadline : Option Deadline) (hs : deadline = none → s.Patient)
    (hp : p.purge.Stands p.table) :
    ∃ progress f, run s deadline p = .ok (progress, f) := by
  cases hreq : p.purge.required with
  | false => exact ⟨_, _, run_idle hreq⟩
  | true =>
    obtain ⟨cut, looks, q, hfirst⟩ := firstPhase_ok hs hp hreq
    obtain ⟨hroutes, -, -⟩ := firstPhase_routes hp hreq hfirst
    rw [run_eq hreq, hfirst]
    change ∃ progress f, (q.secondPhase deadline cut looks >>= _) = _
    by_cases hgo : (q.purge.routed && !cut) = true
    · obtain ⟨hrouted, hcut⟩ := Bool.and_eq_true_iff.mp hgo
      rw [Bool.not_eq_true'] at hcut
      obtain ⟨ended, g, w, hsecond, -, -⟩ :=
        secondPhase_sweeps (hroutes.stands hp hreq) hroutes.required hrouted deadline looks
      rw [hcut, hsecond]
      exact ⟨_, _, rfl⟩
    · rw [secondPhase, if_neg hgo]
      exact ⟨_, _, rfl⟩

/-- Part of the second phase leaves the rest of it to be done. -/
theorem Sweeps.stands {looks : Nat} {w : Sweep} (hw : Sweeps looks q f false w)
    (hq : q.purge.Stands q.table) (hreq : q.purge.required = true)
    (hrouted : q.purge.routed = true) : f.purge.Stands f.table := by
  obtain ⟨hreq', hrouted', hparked', -, hrewind⟩ := q.purge.placeCursor_frame q.table
  obtain ⟨hparked, hripe, hbehind⟩ := hq.ripe hreq hrouted
  have hclears := hw.clears
  have hfreq : f.purge.required = true := by
    rw [hw.purge]
    exact hreq'.trans hreq
  have hfrouted : f.purge.routed = true := by
    rw [hw.purge]
    exact hrouted'.trans hrouted
  have hplace : (f.purge.placeCursor f.table).cursor = w.cursor := by
    rw [Purge.placeCursor_resume (by rw [hw.purge]; exact hrewind), hw.purge]
  have hback : ∀ h o, w.table.get? h = some o → q.table.get? h = some o := by
    intro h o ho
    rw [hclears.get] at ho
    split at ho
    · cases ho
    · exact ho
  refine ⟨hw.table ▸ hclears.tidy, fun h o ho => ?_, fun h => ?_, fun _ h => ?_,
    fun _ _ => ⟨?_, ?_, fun h o ho hu hp => ?_⟩⟩
  · rw [hw.table] at ho
    exact hq.staged h o (hback h o ho)
  · rw [hfreq] at h
    cases h
  · rw [hfrouted] at h
    cases h
  · rw [hw.purge]
    exact hparked'.trans hparked
  · rw [hplace, hw.table]
    exact hclears.ripe hripe
  · rw [hplace]
    rw [hw.table] at ho hp
    apply Nat.le_of_not_lt
    intro hlt
    have hp' : q.table.isPermanent h = false := by
      rw [Table.isPermanent, hclears.boundary] at hp
      exact hp
    have hget := hclears.get h
    have hu' : q.table.isUnreachable h = true := (Table.isUnreachable_of_get? (hback h o ho)).trans hu
    rw [if_pos ⟨hu', hp', hbehind h o (hback h o ho) hu hp', hlt⟩, ho] at hget
    cases hget

/-- A call that comes to the end of the second phase leaves nothing to be done. -/
theorem Sweeps.idle {looks : Nat} {w : Sweep} (hw : Sweeps looks q f true w)
    (hq : q.purge.Stands q.table) (hreq : q.purge.required = true)
    (hrouted : q.purge.routed = true) : f.purge.reset = .idle ∧
      (∀ h o, f.table.get? h = some o → f.table.isPermanent h = false → o.isUnreachable = false) ∧
      f.table = w.table.swept w.cursor := by
  obtain ⟨hparked, -, hbehind⟩ := hq.ripe hreq hrouted
  have hclears := hw.clears
  have hcap := hw.exhausted rfl
  rw [hw.table]
  refine ⟨?_, fun h o ho hp => ?_, ?_⟩
  · rw [Purge.reset, hw.purge]
    exact congrArg (fun a => { Purge.idle with parked := a })
      ((q.purge.placeCursor_frame q.table).2.2.1.trans hparked)
  · cases hu : o.isUnreachable with
    | false => rfl
    | true =>
      have hold := hclears.get h
      rw [ho] at hold
      split at hold
      · cases hold
      · rename_i hkept
        have hlt := Table.index_lt_size hold.symm
        have hp' : q.table.isPermanent h = false := by
          rw [Table.isPermanent, hclears.boundary] at hp
          exact hp
        refine absurd ⟨(Table.isUnreachable_of_get? hold.symm).trans hu, hp',
          hbehind h o hold.symm hu hp', Nat.lt_of_lt_of_le hlt hcap⟩ hkept
  · have hnone : w.table.flaggedFrom w.cursor = [] :=
      Table.flaggedFrom_capacity (hclears.capacity ▸ hcap)
    rw [Table.swept, hnone]
    rfl

/-- A purge without a request has nothing to do. -/
theorem stands_idle {t : Table} (ht : t.Tidy) (hstaged : t.Staged)
    (hnone : ∀ h o, t.get? h = some o → t.isPermanent h = false → o.isUnreachable = false) :
    Purge.idle.Stands t :=
  ⟨ht, hstaged, fun _ => ⟨rfl, hnone⟩, nofun, nofun⟩

/-- Every call leaves the purge in good standing. -/
theorem Ran.stands (hr : Ran s p progress f) (hp : p.purge.Stands p.table) :
    f.purge.Stands f.table := by
  cases hr with
  | idle => exact hp
  | routed hreq hq => exact hq.stands hp hreq
  | swept hreq hq hrouted hw => exact hw.stands (hq.stands hp hreq) hq.required hrouted
  | @done q f w looks hreq hq hrouted hw =>
    have hstands := hq.stands hp hreq
    obtain ⟨hidle, hnone, -⟩ := hw.idle hstands hq.required hrouted
    change f.purge.reset.Stands f.table
    rw [hidle]
    refine stands_idle (hw.table ▸ hw.clears.tidy) (fun h o ho => ?_) hnone
    rw [hw.table, hw.clears.get] at ho
    split at ho
    · cases ho
    · exact hstands.staged h o ho

/-- A purge that is over leaves no trace of itself. -/
theorem Ran.idle_of_completed (hr : Ran s p progress f) (hp : p.purge.Stands p.table)
    (hreq : p.purge.required = true) (hend : progress.completed = true) : f.purge = .idle := by
  cases hr with
  | idle h =>
    rw [hreq] at h
    cases h
  | routed => cases hend
  | swept => cases hend
  | done _ hq hrouted hw => exact (hw.idle (hq.stands hp hreq) hq.required hrouted).1

/-- Where the second phase goes on, or begins once the first is over. -/
def ahead (p : PurgeState) : Nat :=
  if p.purge.routed then (p.purge.placeCursor p.table).cursor else p.table.boundary

def goal (p : PurgeState) : Table := if p.purge.required then p.table.swept p.ahead else p.table

def remaining (p : PurgeState) : Nat :=
  if p.purge.required then (p.table.flaggedFrom p.ahead).length else 0

/-- Placing the cursor does not change where the second phase goes on. -/
theorem ahead_place (p : PurgeState) :
    (⟨p.purge.placeCursor p.table, p.table, p.journal⟩ : PurgeState).ahead = p.ahead := by
  obtain ⟨-, hrouted, -, -, hrewind⟩ := p.purge.placeCursor_frame p.table
  unfold ahead
  dsimp only
  rw [Purge.placeCursor_resume hrewind, hrouted]

/-- After the first phase, or in it, the second begins with the first collectable slot. -/
theorem Rests.ahead {r : Routing} (hq : Rests r q) : q.ahead = q.table.boundary := by
  unfold PurgeState.ahead
  split
  · rename_i hend
    rcases hq.cases with ⟨hgo, -⟩ | ⟨-, hback, -⟩
    · rw [hgo] at hend
      cases hend
    · rw [Purge.placeCursor_rewind hback]
  · rfl

/-- A second phase that is cut off goes on where it stopped. -/
theorem Sweeps.ahead {looks : Nat} {ended : Bool} {w : Sweep} (hw : Sweeps looks q f ended w)
    (hrouted : q.purge.routed = true) : f.ahead = w.cursor := by
  obtain ⟨-, hrouted', -, -, hrewind⟩ := q.purge.placeCursor_frame q.table
  have hf : f.purge.routed = true := by
    rw [hw.purge]
    exact hrouted'.trans hrouted
  rw [PurgeState.ahead, if_pos hf, Purge.placeCursor_resume (by rw [hw.purge]; exact hrewind), hw.purge]

def Outside (p : PurgeState) : Prop :=
  p.purge.required = true → p.purge.routed = false → p.routing.Outside

/-- The first phase does not change what the second has to do. -/
theorem Routes.aims (hq : Routes s p q) (hp : p.purge.Stands p.table)
    (hreq : p.purge.required = true) (hout : p.Outside) : q.Outside ∧
      q.table.swept q.ahead = p.goal ∧ (q.table.flaggedFrom q.ahead).length = p.remaining := by
  obtain ⟨hreq', hrouted', hparked', -, hrewind⟩ := p.purge.placeCursor_frame p.table
  have hgoal : p.goal = p.table.swept p.ahead := if_pos hreq
  have hremaining : p.remaining = (p.table.flaggedFrom p.ahead).length := if_pos hreq
  rw [hgoal, hremaining]
  rcases hq.cases with ⟨hrouted, rfl⟩ | ⟨hrouted, r, hmoves, hrests⟩
  · rw [ahead_place]
    refine ⟨fun _ h => ?_, rfl, rfl⟩
    rw [show (p.purge.placeCursor p.table).routed = true from hrouted'.trans hrouted] at h
    cases h
  · have hstart := hout hreq hrouted
    have hnotes := Routing.Moves.annotates_outside hmoves hstart
    have hbound : r.table.boundary = p.table.boundary := Table.Annotates.boundary hnotes
    have hpahead : p.ahead = p.table.boundary := by simp [ahead, hrouted]
    have hqahead : q.ahead = p.table.boundary := by
      rw [hrests.ahead, hrests.table, hbound]
    rw [hpahead, hqahead, hrests.table]
    refine ⟨fun _ hgo => ?_, ?_, ?_⟩
    · have hend := Routing.Moves.outside hmoves hstart
      rw [hrests.routing_eq hgo]
      exact ⟨hend.cursor, hend.parked⟩
    · exact Table.Annotates.swept hnotes hp.tidy (Nat.le_refl _)
    · rw [Table.Annotates.flaggedFrom hnotes]
      rfl

/-- No call changes what the purge comes to, and every call counts what it frees. -/
theorem Ran.aims (hr : Ran s p progress f) (hp : p.purge.Stands p.table) (hout : p.Outside) :
    f.Outside ∧ f.goal = p.goal ∧ progress.purged + f.remaining = p.remaining := by
  have hplace : ∀ q : PurgeState, q.purge.routed = true →
      q.ahead = (q.purge.placeCursor q.table).cursor := fun q h => if_pos h
  cases hr with
  | idle => exact ⟨hout, rfl, Nat.zero_add _⟩
  | routed hreq hq =>
    obtain ⟨hout', hgoal, hremaining⟩ := hq.aims hp hreq hout
    refine ⟨hout', ?_, ?_⟩
    · rw [← hgoal, goal, if_pos hq.required]
    · rw [← hremaining, remaining, if_pos hq.required, Nat.zero_add]
  | @swept q f w looks hreq hq hrouted hw =>
    obtain ⟨-, hgoal, hremaining⟩ := hq.aims hp hreq hout
    obtain ⟨hreq', hrouted', -, -, hrewind⟩ := q.purge.placeCursor_frame q.table
    have hfreq : f.purge.required = true := by
      rw [hw.purge]
      exact hreq'.trans hq.required
    have hfrouted : f.purge.routed = true := by
      rw [hw.purge]
      exact hrouted'.trans hrouted
    have hahead := hw.ahead hrouted
    rw [hplace q hrouted] at hgoal hremaining
    refine ⟨fun _ h => ?_, ?_, ?_⟩
    · rw [hfrouted] at h
      cases h
    · rw [goal, if_pos hfreq, hahead, hw.table, ← hgoal]
      exact hw.clears.swept
    · rw [remaining, if_pos hfreq, hahead, hw.table, ← hremaining, hw.clears.freed]
      exact Nat.zero_add _
  | @done q f w looks hreq hq hrouted hw =>
    obtain ⟨-, hgoal, hremaining⟩ := hq.aims hp hreq hout
    obtain ⟨-, -, hend⟩ := hw.idle (hq.stands hp hreq) hq.required hrouted
    rw [hplace q hrouted] at hgoal hremaining
    refine ⟨nofun, ?_, ?_⟩
    · rw [← hgoal]
      exact hend.trans hw.clears.swept
    · have hnone : w.table.flaggedFrom w.cursor = [] :=
        Table.flaggedFrom_capacity (hw.clears.capacity ▸ hw.exhausted rfl)
      have hfreed := hw.clears.freed
      rw [hnone] at hfreed
      rw [← hremaining]
      exact hfreed.trans (Nat.zero_add _)

end PurgeState

end TracingHeap
