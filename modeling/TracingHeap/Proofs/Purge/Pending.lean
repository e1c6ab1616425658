import TracingHeap.Proofs.Program.MutatorCalls
import TracingHeap.Proofs.Purge.Resumption

namespace TracingHeap

/-- Whether a word has all the flags of a single one. -/
theorem Flags.contains_single (s : Flags) (f : Flag) : s.contains (.single f) = s.has f := by
  unfold contains has single
  cases hb : s.bits.getLsbD f.bit with
  | true =>
    rw [beq_iff_eq]
    apply BitVec.eq_of_getLsbD_eq
    intro i hi
    rw [BitVec.getLsbD_and, BitVec.getLsbD_twoPow]
    by_cases he : f.bit = i
    · simp [← he, hb]
    · simp [he]
  | false =>
    rw [beq_eq_false_iff_ne]
    intro he
    have hbit := congrArg (BitVec.getLsbD · f.bit) he
    dsimp only at hbit
    rw [BitVec.getLsbD_and, hb, BitVec.getLsbD_twoPow] at hbit
    simp [f.bit_lt] at hbit

namespace Collector

variable {c d : Collector} {h : Handle} {reply : Reply} {op : Operation}

def pending (c : Collector) : PurgeState := ⟨c.purge, c.table, c.journal⟩

def movedOn (c : Collector) (p : PurgeState) : Collector :=
  { c with purge := p.purge, table := p.table, journal := p.journal }

theorem runPurge_eq (c : Collector) (deadline : Option Deadline) : c.runPurge deadline =
    (PurgeState.run c.schema deadline c.pending).map fun found => (found.1, c.movedOn found.2) := by
  unfold runPurge
  change (PurgeState.run c.schema deadline c.pending >>= _) = _
  cases PurgeState.run c.schema deadline c.pending <;> rfl

theorem runPurge_ok {deadline : Option Deadline} {progress : Progress}
    (hok : c.runPurge deadline = .ok (progress, d)) : ∃ p,
      PurgeState.run c.schema deadline c.pending = .ok (progress, p) ∧ d = c.movedOn p := by
  rw [runPurge_eq] at hok
  obtain ⟨⟨progress', p⟩, hrun, hfound⟩ := except_map_ok hok
  cases hfound
  exact ⟨p, hrun, rfl⟩

/-- Finishing a purge, whether or not one is pending, is a call without a deadline. -/
theorem finishPurge_eq (c : Collector) :
    c.finishPurge = (c.runPurge none).map fun found => (found.1.purged, found.2) := by
  unfold finishPurge isPurgePending
  cases hreq : c.purge.required with
  | false =>
    rw [runPurge_eq, PurgeState.run_idle hreq]
    rfl
  | true =>
    simp only [if_true]
    cases c.runPurge none <;> rfl

def Standing (c : Collector) : Prop := c.purge.Stands c.table

theorem Standing.runPurge (hs : c.Standing) {deadline : Option Deadline} {progress : Progress}
    (hok : c.runPurge deadline = .ok (progress, d)) : d.Standing ∧
      (progress.completed = true → d.purge.required = false) ∧
      (deadline = none → progress.completed = true) := by
  obtain ⟨p, hrun, rfl⟩ := runPurge_ok hok
  obtain ⟨hran, hend, -⟩ := PurgeState.ran_of_run (p := c.pending) hs hrun
  refine ⟨hran.stands hs, fun hcompleted => ?_, hend⟩
  cases hreq : c.purge.required with
  | false =>
    rw [PurgeState.run_idle hreq] at hrun
    cases hrun
    exact hreq
  | true =>
    change p.purge.required = false
    rw [hran.idle_of_completed hs hreq hcompleted]
    rfl

/-- Finishing a purge is running it to its end. -/
theorem finishPurge_of_run {progress : Progress} {p : PurgeState}
    (hrun : PurgeState.run c.schema none c.pending = .ok (progress, p)) :
    c.finishPurge = .ok (progress.purged, c.movedOn p) := by
  rw [finishPurge_eq, runPurge_eq, hrun]
  rfl

theorem finishPurge_ok {n : Nat} (hok : c.finishPurge = .ok (n, d)) :
    ∃ progress, c.runPurge none = .ok (progress, d) ∧ progress.purged = n := by
  rw [finishPurge_eq] at hok
  obtain ⟨⟨progress, d'⟩, hrun, hfound⟩ := except_map_ok hok
  cases hfound
  exact ⟨progress, hrun, rfl⟩

theorem Standing.finishPurge (hs : c.Standing) {n : Nat} (hok : c.finishPurge = .ok (n, d)) :
    d.Standing ∧ d.purge.required = false := by
  obtain ⟨progress, hrun, -⟩ := finishPurge_ok hok
  obtain ⟨hd, hidle, hend⟩ := hs.runPurge hrun
  exact ⟨hd, hidle (hend rfl)⟩

structure Idle (c : Collector) : Prop where
  sound : c.Sound
  standing : c.Standing
  idle : c.purge.required = false

/-- The first phase of a collection. It has forgotten the attempts that have missed. -/
theorem Standing.first_phase (hs : c.Standing) (hc : c.Sound) {n : Nat}
    (hok : ({ c with misses := 0 } : Collector).finishPurge = .ok (n, d)) :
    c.Purged d ∧ d.Idle := by
  have hs' : ({ c with misses := 0 } : Collector).Standing := hs
  have hc' : ({ c with misses := 0 } : Collector).Sound := ⟨hc.settled, hc.purge⟩
  have hpurged := (finishPurge_spec hc').ok hok
  obtain ⟨hd, hidle⟩ := hs'.finishPurge hok
  exact ⟨⟨hpurged.spares, hpurged.schema, hpurged.clusters, hpurged.settings, hpurged.sound⟩,
    hpurged.sound, hd, hidle⟩

/-- The phases of finding the dead, if all of them come back, and what is reported of them. -/
theorem condemn_ok {keep : Flags} {stats : Statistics} (hok : c.condemn keep = .ok (stats, d)) :
    c.verifyClusters = .ok () ∧ ∃ r,
      mark c.schema (c.markPlan keep) c.table c.clusters c.pool = .ok r ∧
      ∃ unhashed t cs, r.clusters.dissolveUnreachable c.schema r.table = .ok (unhashed, t, cs) ∧
      ∃ t' cleared, clearWeak c.schema cs r.weak t = .ok (t', cleared) ∧
        d = { c with
          table := t', clusters := cs, pool := r.pool, purge := c.purge.request r.considered } ∧
        stats =
          { considered := r.considered
            scanned := r.scanned
            unreachable := t'.countWith (.single .unreachable)
            dissolved := r.dissolved + unhashed
            weakCleared := cleared
            purged := 0
            waves := r.waves
            parallel := r.parallel
            phases := (if c.settings.verify then [.verify] else [])
              ++ [.mark, .unhash, .clearWeakReferences] } := by
  unfold condemn at hok
  obtain ⟨⟨⟩, hverify, hok₁⟩ := except_bind_ok hok
  obtain ⟨r, hmark, hok₂⟩ := except_bind_ok hok₁
  obtain ⟨⟨unhashed, t, cs⟩, hdissolve, hok₃⟩ := except_bind_ok hok₂
  obtain ⟨⟨t', cleared⟩, hclear, hok₄⟩ := except_bind_ok hok₃
  cases hok₄
  exact ⟨hverify, r, hmark, unhashed, t, cs, hdissolve, t', cleared, hclear, rfl, rfl⟩

theorem condemn_outlasts (hc : c.Sound) {keep : Flags} {stats : Statistics}
    (hok : c.condemn keep = .ok (stats, d)) :
    ∃ t, c.table.Outlasts c.schema t ∧ t.Drops c.schema d.table := by
  obtain ⟨-, r, hmark, unhashed, t, cs, hdissolve, t', cleared, hclear, rfl, -⟩ := condemn_ok hok
  obtain ⟨hrested, hout, -⟩ := (mark_spec (c.markPlan_least keep) hc.settled .all
    (fun _ _ _ _ _ _ => trivial) c.pool).ok hmark
  obtain ⟨j, hout', -⟩ := (dissolveUnreachable_spec hrested.tracing hrested.outlived).ok hdissolve
  obtain ⟨hdrops, -⟩ := (clearWeak_spec j.tracing.orderly r.weak).ok hclear
  exact ⟨t, hout.trans hout', hdrops⟩

/-- Finding the dead moves no object on in its destruction. -/
theorem condemn_back (hc : c.Sound) {keep : Flags} {stats : Statistics}
    (hok : c.condemn keep = .ok (stats, d)) {o' : Object} (ho' : d.table.get? h = some o') :
    ∃ o, c.table.get? h = some o ∧ o'.has .beginDestroyed = o.has .beginDestroyed ∧
      o'.has .finishDestroyed = o.has .finishDestroyed ∧
      (c.table.isPermanent h = true → o'.isUnreachable = o.isUnreachable) := by
  obtain ⟨t, hout, hdrops⟩ := condemn_outlasts hc hok
  obtain ⟨o₁, ho₁, -, -, hflags⟩ := hdrops.back ho'
  obtain ⟨o, ho, hr, hsame⟩ := Table.Evolves.back hout ho₁
  have hhas : ∀ f, o'.has f = o₁.has f := fun f => congrArg (Flags.has · f) hflags
  refine ⟨o, ho, ?_, ?_, fun hp => ?_⟩
  · rw [hhas, hr.flag _ (by decide) (by decide) (by decide) (by decide)]
  · rw [hhas, hr.flag _ (by decide) (by decide) (by decide) (by decide)]
  · rw [Object.isUnreachable, hhas, hsame hp]
    rfl

/-- Finding the dead starts a purge that has not yet done anything. -/
structure Requested (c d : Collector) : Prop where
  standing : d.Standing
  required : d.purge.required = true
  rewind : d.purge.rewind = true
  routed : d.purge.routed = false
  parked : d.purge.parked = #[]
  purged : d.purge.purged = 0
  schema : d.schema = c.schema
  journal : d.journal = c.journal

/-- A purge that has only been requested begins outside the permanent pool. -/
theorem Requested.outside (hd : c.Requested d) : d.pending.Outside := by
  intro _ _
  refine ⟨?_, fun h hh => ?_⟩
  · change d.table.boundary ≤ (d.purge.placeCursor d.table).cursor
    exact Nat.le_of_eq (Purge.placeCursor_rewind hd.rewind d.table).symm
  · change h ∈ (d.purge.placeCursor d.table).parked at hh
    rw [(d.purge.placeCursor_frame d.table).2.2.1, hd.parked] at hh
    exact absurd hh (Array.not_mem_empty h)

theorem Idle.requested (hc : c.Idle) {keep : Flags} {stats : Statistics}
    (hok : c.condemn keep = .ok (stats, d)) : c.Requested d := by
  have hs := hc.standing
  obtain ⟨hparked, hnone⟩ := hs.idle hc.idle
  have hsound := hc.sound.condemned hok
  have hperm : ∀ h, d.table.isPermanent h = c.table.isPermanent h := hsound.2.2.2.isPermanent
  have hback := fun {h o'} => @condemn_back c d h hc.sound keep stats hok o'
  obtain ⟨-, r, -, unhashed, t, cs, -, t', cleared, -, rfl, -⟩ := condemn_ok hok
  have hrewind : (c.purge.request r.considered).rewind = true := rfl
  refine ⟨⟨hsound.1.settled.orderly.tidy, fun h o' ho' hstage => ?_, fun h => ?_, fun _ _ => ?_,
    fun _ h => ?_⟩, rfl, rfl, rfl, hparked, rfl, rfl, rfl⟩
  · obtain ⟨o, ho, hb, hf, hsame⟩ := hback ho'
    rw [hb, hf] at hstage
    have hu := hs.staged h o ho hstage
    cases hp : c.table.isPermanent h with
    | true => exact (hsame hp).trans hu
    | false =>
      rw [hnone h o ho hp] at hu
      cases hu
  · cases h
  · rw [Purge.placeCursor_rewind hrewind]
    have hempty : (c.purge.request r.considered).parked = #[] := hparked
    refine ⟨fun h o' ho' _ hc' => ?_, fun h _ _ _ hp hlt => ?_, fun h hh => ?_, ?_⟩
    · obtain ⟨o, ho, hb, hf, -⟩ := hback ho'
      have hp : c.table.isPermanent h = false := by
        rw [← hperm h]
        simpa [Table.isPermanent] using hc'
      have hstage := hs.staged h o ho
      rw [hnone h o ho hp] at hstage
      rw [hb, hf]
      simpa using hstage
    · simp only [Table.isPermanent, decide_eq_false_iff_not] at hp
      exact absurd hlt hp
    · rw [hempty] at hh
      exact absurd hh (Array.not_mem_empty h)
    · rw [hempty]
      exact .nil
  · cases h

theorem countP_filterMap_id (l : List (Option Object)) :
    (l.filterMap id).countP (·.flags.contains (.single .unreachable)) =
      (l.filterMap Table.flagged?).length := by
  induction l with
  | nil => rfl
  | cons slot rest ih =>
    cases slot with
    | none => exact ih
    | some o =>
      have hcontains : o.flags.contains (.single .unreachable) = o.isUnreachable :=
        Flags.contains_single o.flags .unreachable
      change (o :: rest.filterMap id).countP _ = _
      rw [List.countP_cons, hcontains, ih, List.filterMap_cons, Table.flagged?_some]
      cases o.isUnreachable <;> rfl

/-- What a collection reports as unreachable is what the purge has to free. -/
theorem condemn_unreachable {keep : Flags} {stats : Statistics}
    (hok : c.condemn keep = .ok (stats, d)) :
    stats.unreachable = (d.table.flaggedFrom d.table.boundary).length := by
  obtain ⟨-, r, -, unhashed, t, cs, -, t', cleared, -, rfl, rfl⟩ := condemn_ok hok
  exact countP_filterMap_id _

/-- The phases of a collection, if all of them come back, and what it reports of them. -/
theorem collect_ok {keep : Flags} {full : Bool} {stats : Statistics}
    (hok : c.collect keep full = .ok (stats, d)) :
    ∃ n b, ({ c with misses := 0 } : Collector).finishPurge = .ok (n, b) ∧
      ∃ found m, b.condemn keep = .ok (found, m) ∧
      ∃ freed e, (if full then m.finishPurge else pure (0, m)) = .ok (freed, e) ∧
        stats = { found with purged := n + freed, phases := stats.phases } ∧
        d = { e with last := some stats } := by
  unfold collect at hok
  obtain ⟨⟨n, b⟩, hfinish, hok₁⟩ := except_bind_ok hok
  obtain ⟨⟨found, m⟩, hcondemn, hok₂⟩ := except_bind_ok hok₁
  refine ⟨n, b, hfinish, found, m, hcondemn, ?_⟩
  cases full with
  | true =>
    obtain ⟨⟨freed, e⟩, hfreed, hok₃⟩ := except_bind_ok hok₂
    cases hok₃
    exact ⟨freed, e, hfreed, rfl, rfl⟩
  | false =>
    cases hok₂
    exact ⟨0, m, rfl, rfl, rfl⟩

/-- A collection ends with a purge, or with nothing more. -/
theorem last_phase {m e : Collector} {full : Bool} {freed : Nat} (hm : m.Sound)
    (hend : (if full then m.finishPurge else pure (0, m)) = .ok (freed, e)) : m.Purged e := by
  cases full with
  | true => exact (finishPurge_spec hm).ok hend
  | false =>
    cases hend
    exact .refl hm

/-- A collection of a standing collector is the search for the dead in a heap without a pending purge,
and perhaps a purge. -/
theorem Standing.collect (hs : c.Standing) {keep : Flags} {full : Bool} {stats : Statistics}
    (hc : c.Sound) (hok : c.collect keep full = .ok (stats, d)) : d.Standing := by
  obtain ⟨n, b, hfinish, found, m, hcondemn, freed, e, hend, -, rfl⟩ := collect_ok hok
  have hm := ((hs.first_phase hc hfinish).2.requested hcondemn).standing
  change e.Standing
  cases full with
  | true => exact (hm.finishPurge hend).1
  | false =>
    cases hend
    exact hm

theorem standing_start (settings : Settings) (processors : Nat) :
    (start settings processors).Standing := by
  have hnone : ∀ {h o}, Table.empty.get? h = some o → False := by
    intro h o ho
    rw [Table.get?_empty] at ho
    cases ho
  exact PurgeState.stands_idle .empty (fun _ _ ho => (hnone ho).elim)
    fun _ _ ho => (hnone ho).elim

/-- The same heap with another lock and another count of attempts that have missed. -/
def relocked (c : Collector) (lock : CollectionLock) (misses : Nat) : Collector :=
  { c with lock := lock, misses := misses }

theorem Sound.relocked (hc : c.Sound) (lock : CollectionLock) (misses : Nat) :
    (c.relocked lock misses).Sound :=
  ⟨hc.settled, hc.purge⟩

/-- What a call that may collect does, if it comes back: it collects, carries the purge on or finishes
it, or does no more than to miss. -/
theorem perform_collects (hop : op.collects = true) (hok : c.perform op = .ok (reply, d)) :
    ∃ lock misses, d = c.relocked lock misses ∨
      (∃ keep full stats, (c.relocked lock misses).collect keep full = .ok (stats, d)) ∨
      (∃ deadline progress, (c.relocked lock misses).runPurge deadline = .ok (progress, d)) ∨
      (op = .shutdown ∧ ∃ n e, (c.relocked lock misses).finishPurge = .ok (n, e) ∧
        d = { e with pool := e.pool.cleanup.2 }) := by
  cases op with
  | collect keep full =>
    refine ⟨c.lock, c.misses, ?_⟩
    unfold perform at hok
    dsimp only at hok
    split at hok
    · cases hok
      exact .inl rfl
    · obtain ⟨found, hfound, hok⟩ := except_bind_ok hok
      cases hok
      exact .inr (.inl ⟨keep, full, found.1, hfound⟩)
  | tryCollect keep full =>
    obtain ⟨found, hfound, hok⟩ := except_bind_ok hok
    cases hok
    unfold tryCollect at hfound
    split at hfound
    · obtain ⟨e, he, hfound⟩ := except_bind_ok hfound
      cases hfound
      exact ⟨c.lock, c.misses, .inr (.inl ⟨keep, full, e.1, he⟩)⟩
    · dsimp only at hfound
      split at hfound
      · obtain ⟨e, he, hfound⟩ := except_bind_ok hfound
        cases hfound
        exact ⟨.free, c.misses + 1, .inr (.inl ⟨keep, full, e.1, he⟩)⟩
      · cases hfound
        exact ⟨c.lock, c.misses + 1, .inl rfl⟩
  | purge deadline =>
    obtain ⟨found, hfound, hok⟩ := except_bind_ok hok
    cases hok
    exact ⟨c.lock, c.misses, .inr (.inr (.inl ⟨deadline, found.1, hfound⟩))⟩
  | shutdown =>
    refine ⟨c.lock, c.misses, ?_⟩
    unfold perform at hok
    dsimp only at hok
    split at hok
    · cases hok
      exact .inl rfl
    · obtain ⟨e, hfound, hok⟩ := except_bind_ok hok
      cases hok
      obtain ⟨⟨n, b⟩, hfinish, hend⟩ := except_bind_ok hfound
      cases hend
      exact .inr (.inr (.inr ⟨rfl, n, b, hfinish, rfl⟩))
  | _ => cases hop

/-- Every call leaves the purge in good standing. -/
theorem Standing.perform (hs : c.Standing) (hc : c.Sound) (ha : op.Allowed c)
    (hok : c.perform op = .ok (reply, d)) : d.Standing := by
  cases hop : op.collects with
  | false =>
    have hr := perform_respects hc ha hop hok
    unfold Standing
    rw [hr.purge]
    exact Purge.Stands.abides hs hr.abides
  | true =>
    obtain ⟨lock, misses, hcases⟩ := perform_collects hop hok
    have hs' : (c.relocked lock misses).Standing := hs
    rcases hcases with rfl | ⟨keep, full, stats, hd⟩ | ⟨deadline, progress, hd⟩ | ⟨-, n, e, hd, rfl⟩
    · exact hs'
    · exact hs'.collect (hc.relocked lock misses) hd
    · exact (hs'.runPurge hd).1
    · exact (hs'.finishPurge hd).1

/-- A call adds a class at most. -/
theorem perform_classes (hc : c.Sound) (ha : op.Allowed c) (hok : c.perform op = .ok (reply, d)) :
    op.Classes c.schema d.schema := by
  cases hop : op.collects with
  | false => exact (perform_respects hc ha hop hok).schema
  | true =>
    obtain ⟨lock, misses, hcases⟩ := perform_collects hop hok
    have hc' := hc.relocked lock misses
    left
    rcases hcases with rfl | ⟨keep, full, stats, hd⟩ | ⟨deadline, progress, hd⟩ | ⟨-, n, e, hd, rfl⟩
    · rfl
    · obtain ⟨_, m, -, -, hm, hpurged⟩ :=
        (collect_spec hc' full (fun _ _ => .all) (fun _ _ _ _ _ _ _ _ => trivial)).ok hd
      exact hpurged.schema.trans hm
    · exact ((runPurge_spec hc' deadline).ok hd).schema
    · exact ((finishPurge_spec hc').ok hd).schema

end Collector

/-- A class whose own readiness hook waits for no object without end. -/
def ClassSpec.Patient (spec : ClassSpec) : Prop := ∀ f, spec.lifecycle.readiness = some f →
  ∀ gateOpen o, ∃ n, f gateOpen o = some n

/-- The hooks of a new class are its own, and for the rest those of its superclass. -/
theorem Schema.lifecycle_register {s s' : Schema} {spec : ClassSpec} {id : ClassId}
    (hok : s.register spec = .ok (id, s')) : ∃ e, s' = ⟨s.classes.push e⟩ ∧
      (e.lifecycle = spec.lifecycle ∨
        ∃ parent, e.lifecycle = spec.lifecycle.inherit (s.lifecycle parent)) := by
  unfold Schema.register at hok
  split at hok
  · cases hok
  · obtain ⟨_, -, hok⟩ := except_bind_ok hok
    obtain ⟨parent, hparent, hok⟩ := except_bind_ok hok
    obtain ⟨_, -, hok⟩ := except_bind_ok hok
    obtain ⟨e, he, hok⟩ := except_bind_ok hok
    cases hok
    refine ⟨e, rfl, ?_⟩
    have hlaid := except_mapError_ok he
    unfold Schema.layOut at hlaid
    obtain ⟨width, -, hlaid⟩ := except_bind_ok hlaid
    obtain ⟨total, -, hlaid⟩ := except_bind_ok hlaid
    cases hlaid
    cases parent with
    | none => exact .inl rfl
    | some p =>
      refine .inr ?_
      have hparent := except_mapError_ok hparent
      unfold Schema.parent at hparent
      split at hparent
      · cases hparent
      · rename_i pid _
        refine ⟨pid, ?_⟩
        unfold Schema.get at hparent
        cases hp : s.get? pid with
        | none =>
          rw [hp] at hparent
          cases hparent
        | some q =>
          rw [hp] at hparent
          cases hparent
          simp only [Schema.lifecycle, hp]

theorem Schema.Patient.register {s s' : Schema} {spec : ClassSpec} {id : ClassId} (hs : s.Patient)
    (hspec : spec.Patient) (hok : s.register spec = .ok (id, s')) : s'.Patient := by
  obtain ⟨e, rfl, he⟩ := Schema.lifecycle_register hok
  intro i f hf
  unfold Schema.lifecycle at hf
  split at hf
  · rename_i k hk
    simp only [Schema.get?, Array.getElem?_push] at hk
    split at hk
    · cases hk
      rcases he with he | ⟨parent, he⟩
      · exact hspec f (he ▸ hf)
      · rw [he] at hf
        rcases Option.or_eq_some_iff.mp hf with hown | ⟨-, hinherited⟩
        · exact hspec f hown
        · exact hs parent f hinherited
    · refine hs i f ?_
      simp only [Schema.lifecycle, Schema.get?, hk]
      exact hf
  · cases hf

/-- After every history of calls the purge can be carried on. -/
theorem Reached.standing {c : Collector} (hr : Reached c) : c.Standing := by
  induction hr with
  | start settings processors => exact Collector.standing_start settings processors
  | step hc ha hd ih => exact ih.perform hc.sound ha hd

/-- As long as every class registered is patient, no object is waited for without end. -/
theorem Reached.patient_performAll {c d : Collector} {ops : List Operation} (hr : Reached c)
    (hspecs : ∀ spec, .registerClass spec ∈ ops → spec.Patient) (hp : c.schema.Patient)
    (hops : ∀ op ∈ ops, ∀ b, op.Allowed b) (hd : c.performAll ops = .ok d) :
    d.schema.Patient := by
  induction ops generalizing c with
  | nil =>
    cases hd
    exact hp
  | cons op rest ih =>
    obtain ⟨reply, b, hb, hd⟩ := Collector.performAll_cons hd
    have ha := hops op (List.mem_cons_self ..) c
    refine ih (hr.step ha hb) (fun spec hm => hspecs spec (List.mem_cons_of_mem _ hm)) ?_
      (fun o ho => hops o (List.mem_cons_of_mem _ ho)) hd
    rcases Collector.perform_classes hr.sound ha hb with hsame | ⟨spec, id, he, hreg⟩
    · rw [hsame]
      exact hp
    · exact hp.register (hspecs spec (he ▸ List.mem_cons_self ..)) hreg

/-- A run with one class whose objects are not waited for without end. -/
theorem Reached.of_runs_patient {settings : Settings} {spec : ClassSpec} {ops : List Operation}
    {test : Collector → Bool} (hspec : spec.Honest) (hpatient : spec.Patient)
    (hops : ops.all (·.asksNothing) = true)
    (hrun : Collector.runs settings spec ops test = true) :
    ∃ c, Reached c ∧ c.schema.Patient ∧ test c = true := by
  have hallowed : ∀ op ∈ Operation.registerClass spec :: ops, ∀ b, op.Allowed b := by
    intro op hm b
    rcases List.mem_cons.mp hm with rfl | hm
    · exact hspec
    · exact Operation.allowed_of_asksNothing (List.all_eq_true.mp hops op hm) b
  have hspecs : ∀ spec', .registerClass spec' ∈ Operation.registerClass spec :: ops →
      spec'.Patient := by
    intro spec' hm
    rcases List.mem_cons.mp hm with he | hm
    · cases he
      exact hpatient
    · cases List.all_eq_true.mp hops _ hm
  have hempty : Schema.empty.Patient := by
    intro id f hf
    simp [Schema.lifecycle, Schema.get?, Schema.empty, Lifecycle.silent] at hf
  obtain ⟨c, hc, htest⟩ := Collector.performAll_of_runs hrun
  have hstart := Reached.start settings 1
  exact ⟨c, hstart.performAll hallowed hc, hstart.patient_performAll hspecs hempty hallowed hc, htest⟩

/-- The pool of a small heap may be closed: the slot that the boundary cannot be moved past is not
there. -/
theorem Operation.allowed_closePermanentPool {c : Collector} (hsize : c.table.slots.size ≤ 10) :
    Operation.closePermanentPool.Allowed c := by
  intro o ho
  have hlt : c.table.slots.size ≤ 4294967295 := Nat.le_trans hsize (by decide)
  rw [Table.slot?, Array.getElem?_eq_none hlt] at ho
  cases ho

/-- A run that goes on after the permanent pool was closed, in a heap of a few slots. -/
def Collector.runsPooled (spec : ClassSpec) (before after : List Operation)
    (test : Collector → Bool) : Bool :=
  runs .serial spec before fun b => decide (b.table.slots.size ≤ 10) &&
    match b.closePermanentPool.performAll after with
    | .ok c => test c
    | .error _ => false

theorem Reached.of_runsPooled {spec : ClassSpec} {before after : List Operation}
    {test : Collector → Bool} (hspec : spec.Honest) (hpatient : spec.Patient)
    (hbefore : before.all (·.asksNothing) = true) (hafter : after.all (·.asksNothing) = true)
    (hrun : Collector.runsPooled spec before after test = true) :
    ∃ c, Reached c ∧ c.schema.Patient ∧ test c = true := by
  obtain ⟨b, hr, hp, htest⟩ := of_runs_patient hspec hpatient hbefore hrun
  obtain ⟨hsize, htest⟩ := Bool.and_eq_true_iff.mp htest
  have hclose := Operation.allowed_closePermanentPool (of_decide_eq_true hsize)
  have hpooled : Reached b.closePermanentPool := hr.step hclose rfl
  have hallowed : ∀ op ∈ after, ∀ b, op.Allowed b := fun op hop b =>
    Operation.allowed_of_asksNothing (List.all_eq_true.mp hafter op hop) b
  split at htest
  · rename_i c hc
    have hspecs : ∀ spec', .registerClass spec' ∈ after → spec'.Patient := by
      intro _ hm
      cases List.all_eq_true.mp hafter _ hm
    exact ⟨c, hpooled.performAll hallowed hc, hpooled.patient_performAll hspecs hp hallowed hc,
      htest⟩
  · cases htest

end TracingHeap
