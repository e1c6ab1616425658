import TracingHeap.Proofs.Mark.WorkLeft
import TracingHeap.Proofs.Collection.Returns

namespace TracingHeap

section

variable {s : Schema} {plan : MarkPlan} {good : Handle → Prop} {frontier survivors : List Handle}
  {r r' : MarkResult} {g : Handle}

structure Round (s : Schema) (plan : MarkPlan) (good : Handle → Prop) (frontier : List Handle)
    (r : MarkResult) (survivors : List Handle) (r' : MarkResult) (deeds : List Deed) : Prop where
  tracing : Tracing s r'.clusters plan.memberKeepsCluster good (· ∈ survivors) (· ∈ r'.weak) r'.table
  worked : ∀ g, r.table.outstanding frontier g ≤ 1 → Worked g r.table r'.table
    (r.table.outstanding frontier g) (r'.table.outstanding survivors g) deeds
  size : r'.clusters.size ≤ r.clusters.size
  less : survivors ≠ [] → r'.clusters.size < r.clusters.size

theorem round_of_markRound (hleast : 0 < plan.waves.least)
    (p : Tracing s r.clusters plan.memberKeepsCluster good (· ∈ frontier) (· ∈ r.weak) r.table)
    (hok : markRound s plan frontier r = .ok (survivors, r')) :
    Round s plan good frontier r survivors r' ((plan.tracer s r).traceDeeds plan.waves frontier
      r.table r.pool ⟨r.weak, r.scanned, r.waves⟩) := by
  obtain ⟨traced, htrace, count, t, cs, hdissolve, rfl⟩ := markRound_ok hok
  have hbetween := ((p.trace_round hleast).ok htrace).1
  obtain ⟨-, hscatters⟩ := Clusters.scatters_of_dissolveOutlived hdissolve
  have b := hbetween.scattered outlived_dead (.refl _) hscatters
  have ho := hbetween.orderly
  obtain ⟨hdistinct, hdead⟩ := Clusters.dead_of_filter ho outlived_dead (.refl _)
  refine ⟨b.tracing, fun g hone => ?_, b.size_le, b.size_lt⟩
  have hdealt := Tracer.trace_dealt (g := g) hleast p.orderly.tidy htrace
  have htraced := hdealt.worked p.orderly.enrolled
  have hboth := htraced.trans (b.worked ho hdistinct hdead g) hone
  rwa [List.append_nil] at hboth

/-- The rounds of a mark, each one after the first with a cluster less. The induction is on the bound of
the rounds. -/
theorem markRounds_worked (hleast : 0 < plan.waves.least) (fuel : Nat) :
    ∀ {frontier : List Handle} {r r' : MarkResult},
      Tracing s r.clusters plan.memberKeepsCluster good (· ∈ frontier) (· ∈ r.weak) r.table →
      markRounds s plan fuel frontier r = .ok r' →
        (∀ g, r.table.outstanding frontier g ≤ 1 → Worked g r.table r'.table
          (r.table.outstanding frontier g) (r'.table.outstanding [] g)
          (markRoundsDeeds s plan fuel frontier r).flatten) ∧
        (markRoundsDeeds s plan fuel frontier r).length + r'.clusters.size ≤
          r.clusters.size + 1 := by
  induction fuel with
  | zero =>
    intro frontier r r' _ hok
    cases hok
  | succ fuel ih =>
    intro frontier r r' p hok
    rw [markRounds_succ] at hok
    obtain ⟨⟨survivors, r₁⟩, hround, hok⟩ := except_bind_ok hok
    have b := round_of_markRound hleast p hround
    rw [markRoundsDeeds, hround, doneAfter_ok]
    dsimp only at hok ⊢
    split at hok
    · rename_i hempty
      cases hok
      rw [if_pos hempty]
      rw [List.isEmpty_iff] at hempty
      subst hempty
      refine ⟨fun g hone => ?_, ?_⟩
      · rw [List.flatten_cons, List.flatten_nil, List.append_nil]
        exact b.worked g hone
      · have := b.size
        rw [List.length_singleton]
        dsimp only
        omega
    · rename_i hsome
      rw [if_neg hsome]
      obtain ⟨hrest, hsize⟩ := ih b.tracing hok
      have hless := b.less fun he => hsome (List.isEmpty_iff.mpr he)
      refine ⟨fun g hone => ?_, ?_⟩
      · rw [List.flatten_cons]
        have hfirst := b.worked g hone
        have hbalance := hfirst.balance
        exact hfirst.trans (hrest g (by omega)) hone
      · rw [List.length_cons]
        omega

variable {t t' : Table} {cs : Clusters} {keep : Flags} {seeds : List Handle} {o : Object}

/-- After seeding, one deed waits for each collectable object: it is queued, it is to be claimed, or it is
a member. -/
theorem outstanding_seeded (hs : Settled s t cs) (ev : t.Evolves (t.SeededAs keep) t')
    (hfresh : ∀ h o, t.get? h = some o → t.isPermanent h = false → o.isUnreachable = false)
    (hseeds : ∀ h, h ∈ seeds ↔ t.isPermanent h = false ∧
      ∃ o, t.get? h = some o ∧ o.isSeed keep = true) (hnodup : seeds.Nodup)
    (ho : t.get? g = some o) (hp : t.isPermanent g = false) : t'.outstanding seeds g = 1 := by
  obtain ⟨o', ho', hseeded⟩ := ev.kept g o ho
  have hkind := Table.kind_of_get? ho'
  rw [hseeded.owner, hseeded.has (by decide) (by decide) (by decide)] at hkind
  cases hown : o.owner with
  | some r =>
    rw [hown, hs.orderly.enrolled.not_root_of_owner ho hown] at hkind
    exact Table.outstanding_member hkind
  | none =>
    have hcount : seeds.count g = (o.isSeed keep).toNat := by
      cases hseed : o.isSeed keep with
      | true => exact List.count_eq_one_of_mem hnodup ((hseeds g).mpr ⟨hp, o, ho, hseed⟩)
      | false =>
        refine List.count_eq_zero_of_not_mem fun hm => ?_
        obtain ⟨-, p, hget, hseed'⟩ := (hseeds g).mp hm
        rw [ho] at hget
        cases hget
        rw [hseed] at hseed'
        cases hseed'
    rw [Table.outstanding_other (by simp [hkind, hown]), hcount, Table.asleep,
      Table.isUnreachable_of_get? ho', hseeded.collectable hp,
      Object.isUnreachable_seeded (hfresh g o ho hp), hown]
    cases o.isSeed keep <;> rfl

/-- A mark leaves alone what is not collectable. -/
theorem outstanding_permanent (ev : t.Evolves (t.SeededAs keep) t') (hout : t.Outlasts s r.table)
    (hseeds : ∀ h, h ∈ seeds ↔ t.isPermanent h = false ∧
      ∃ o, t.get? h = some o ∧ o.isSeed keep = true)
    (hp : t.isPermanent g = true ∨ t.get? g = none) :
    t'.outstanding seeds g = r.table.outstanding [] g := by
  have hsame : t'.get? g = t.get? g ∧ r.table.get? g = t.get? g := by
    cases ho : t.get? g with
    | none => exact ⟨ev.gone g ho, Table.Evolves.gone hout g ho⟩
    | some o =>
      have hp := hp.resolve_right (by simp [ho])
      obtain ⟨o', ho', hseeded⟩ := ev.kept g o ho
      obtain ⟨p, hget, -, hkept⟩ := Table.Evolves.kept hout g o ho
      rw [ho', hget, hseeded.permanent hp, hkept hp]
      exact ⟨rfl, rfl⟩
  have hcount : seeds.count g = 0 := by
    refine List.count_eq_zero_of_not_mem fun hm => ?_
    obtain ⟨hnot, o, ho, -⟩ := (hseeds g).mp hm
    rcases hp with hp | hp
    · rw [hp] at hnot
      cases hnot
    · rw [hp] at ho
      cases ho
  unfold Table.outstanding Table.kind
  rw [Table.asleep_eq, Table.asleep_eq, hsame.1, hsame.2, hcount, List.count_nil]

/-- What a mark that comes back makes of the deeds that wait for an object after seeding. One waits for
each collectable object, and what waits for any other is left alone. -/
theorem mark_worked (hleast : 0 < plan.waves.least) (hs : Settled s t cs) {pool : ScratchPool}
    (hok : mark s plan t cs pool = .ok r) :
    (markDeeds s plan t cs pool).length + r.clusters.size ≤ cs.size + 1 ∧
      ∃ t', ∀ h, (t.isPermanent h = false ∧
          Worked h t' r.table 1 (r.table.outstanding [] h) (markDeeds s plan t cs pool).flatten) ∨
        ((t.isPermanent h = true ∨ r.table.get? h = none) ∧
          ∃ n, Worked h t' r.table n n (markDeeds s plan t cs pool).flatten) := by
  obtain ⟨-, hout, hfresh, -⟩ := (mark_spec hleast hs .all (fun _ _ _ _ _ _ => trivial) pool).ok hok
  obtain ⟨seeds, considered, t', hseed, hrounds, -⟩ := mark_ok hok
  obtain ⟨ev, -, hseeds⟩ := (seed_spec hs.orderly.tidy hs.orderly.unkilled).ok hseed
  dsimp only at ev hseeds
  have hstart : Tracing s cs plan.memberKeepsCluster (fun _ => True) (· ∈ seeds)
      (· ∈ (#[] : Array Site)) t' :=
    hs.tracing ev hfresh .all _ _ hseeds fun _ _ => trivial
  obtain ⟨hworked, hsize⟩ := markRounds_worked hleast _ hstart hrounds
  unfold markDeeds
  rw [hseed, doneAfter_ok]
  dsimp only at hworked hsize ⊢
  refine ⟨hsize, t', fun h => ?_⟩
  have hw := hworked h
  by_cases hp : t.isPermanent h = true ∨ t.get? h = none
  · rw [outstanding_permanent ev hout hseeds hp] at hw
    exact .inr ⟨hp.imp_right (Table.Evolves.gone hout h), _, hw (r.table.outstanding_nil_le h)⟩
  · rw [not_or, Bool.not_eq_true, ← ne_eq, Option.ne_none_iff_exists'] at hp
    obtain ⟨hp, o, ho⟩ := hp
    rw [outstanding_seeded hs ev hfresh hseeds (seed_nodup hs.orderly.tidy hseed) ho hp] at hw
    exact .inl ⟨hp, hw (Nat.le_refl 1)⟩

/-- A mark that comes back walks each collectable object that ends standalone and claimed once, and no
other, and expands each cluster that ends registered with its root claimed once, and no other. -/
theorem mark_once (hleast : 0 < plan.waves.least) (hs : Settled s t cs) {pool : ScratchPool}
    (hok : mark s plan t cs pool = .ok r) (h : Handle) :
    (markDeeds s plan t cs pool).flatten.count (.walk h) =
        (if t.isPermanent h = false ∧ r.table.Standalone h ∧ r.table.isUnreachable h = false
          then 1 else 0) ∧
      (markDeeds s plan t cs pool).flatten.count (.expand h) =
        if t.isPermanent h = false ∧ r.clusters.contains h = true ∧ r.table.isUnreachable h = false
          then 1 else 0 := by
  have hrested := ((mark_spec hleast hs .all (fun _ _ _ _ _ _ => trivial) pool).ok hok).1
  obtain ⟨-, t', hcases⟩ := mark_worked hleast hs hok
  rw [hrested.tracing.orderly.enrolled.contains_eq]
  rcases hcases h with ⟨hp, hw⟩ | ⟨hp, n, hw⟩
  · simp only [hp, true_and]
    exact ⟨hw.count_walk, hw.count_expand⟩
  · obtain ⟨hwalk, hexpand⟩ := hw.none_done
    rw [hwalk, hexpand, if_neg, if_neg]
    · exact ⟨rfl, rfl⟩
    · rintro ⟨hnot, hroot, -⟩
      rcases hp with hp | hp
      · rw [hp] at hnot
        cases hnot
      · simp [Table.has, hp] at hroot
    · rintro ⟨hnot, ⟨o, ho, -⟩, -⟩
      rcases hp with hp | hp
      · rw [hp] at hnot
        cases hnot
      · rw [hp] at ho
        cases ho

end

/-- In a heap in order, only a number that does not fit keeps a class from having a token stream. -/
theorem Schema.Regular.averts {s : Schema} (hs : s.Regular) :
    s.Averts fun f => ¬ (f.Broken ∨ f.IsOverflow) := by
  refine ⟨fun f hf hnot => hnot (.inl hf), fun id f hf hnot => hnot (.inr ?_)⟩
  unfold Schema.stream Schema.get at hf
  cases he : s.get? id with
  | none => simp [he, bind, Except.bind] at hf
  | some e =>
    cases hstream : e.stream with
    | ok ts => simp [he, hstream, bind, Except.bind] at hf
    | error f' =>
      simp only [he, hstream, bind, Except.bind, Except.mapError, Except.error.injEq,
        Failure.fault.injEq] at hf
      subst hf
      exact hs.stream_error id e he _ hstream

namespace Collector

variable {c : Collector} {plan : MarkPlan}

/-- A mark ends, and nothing but a number that does not fit can keep it from coming back. -/
theorem Idle.mark_ends (hc : c.Idle) (hpool : c.pool.inUse = 0) (hleast : 0 < plan.waves.least)
    (hworkers : plan.waves.workers ≠ some 0) {f : Fault}
    (hf : mark c.schema plan c.table c.clusters c.pool = .error f) : f.IsOverflow := by
  have hs := hc.sound.settled
  have hplan : plan.waves.Averts fun f => ¬ (f.Broken ∨ f.IsOverflow) :=
    ⟨hleast, fun f hf hnot => hnot (.inr (mulSizes_error hf))⟩
  have hends := TracingHeap.mark_ends hs.orderly.regular.averts hplan hworkers hs.orderly.tidy
    c.clusters hpool (hc.standing.idle hc.idle).2
  have hyields := mark_spec hleast hs .all (fun _ _ _ _ _ _ => trivial) c.pool
  exact (not_not.mp (hends.not_bad hf)).resolve_left (hyields.not_bad hf)

end Collector

/-- What a collection marks, after it has finished the purge that was left: a reached heap in which no
purge is pending. The mark ends: none of its loops runs into its bound, only a number that does not fit can
stop it, and where the sizes that are computed fit it comes back. Then it has taken at most one round more
than there were clusters. It has walked every collectable object that ends standalone and not flagged
unreachable once, and no other; and it has expanded every cluster with a collectable root that ends
registered and not flagged unreachable once, and no other. A reached heap has honest classes, and its pool was
never closed while the object in slot 4294967295 was in a cluster. -/
theorem Reached.marks_once {c b : Collector} {n : Nat} (hr : Reached c)
    (hfinish : c.finishPurge = .ok (n, b)) {plan : MarkPlan} (hleast : 0 < plan.waves.least)
    (hworkers : plan.waves.workers ≠ some 0) :
    (∀ f, mark b.schema plan b.table b.clusters b.pool = .error f → f.IsOverflow) ∧
      (b.schema.Streamed → 2 * plan.waves.least < sizeLimit →
        ∃ r, mark b.schema plan b.table b.clusters b.pool = .ok r) ∧
      ∀ r, mark b.schema plan b.table b.clusters b.pool = .ok r →
        (markDeeds b.schema plan b.table b.clusters b.pool).length ≤ b.clusters.size + 1 ∧
        ∀ h, (markDeeds b.schema plan b.table b.clusters b.pool).flatten.count (.walk h) =
            (if b.table.isPermanent h = false ∧ r.table.Standalone h ∧
              r.table.isUnreachable h = false then 1 else 0) ∧
          (markDeeds b.schema plan b.table b.clusters b.pool).flatten.count (.expand h) =
            if b.table.isPermanent h = false ∧ r.clusters.contains h = true ∧
              r.table.isUnreachable h = false then 1 else 0 := by
  obtain ⟨hstanding, hidle⟩ := hr.standing.finishPurge hfinish
  have hb : b.Idle := ⟨((Collector.finishPurge_spec hr.sound).ok hfinish).sound, hstanding, hidle⟩
  have hpool : b.pool.inUse = 0 := by
    rw [Collector.finishPurge_pool hfinish]
    exact hr.balanced
  have hs := hb.sound.settled
  refine ⟨fun f hf => hb.mark_ends hpool hleast hworkers hf, fun hstreamed hfits => ?_,
    fun r hok => ⟨?_, fun h => mark_once hleast hs hok h⟩⟩
  · have hplan : plan.waves.Fits := ⟨hleast, hfits⟩
    have hmark := mark_spec hleast hs .all (fun _ _ _ _ _ _ => trivial) b.pool
    obtain ⟨r, hok, -⟩ := hmark.returns (mark_ends hstreamed.averts (hplan.averts _) hworkers
      hs.orderly.tidy b.clusters hpool (hb.standing.idle hb.idle).2)
    exact ⟨r, hok⟩
  · have := (mark_worked hleast hs hok).1
    omega

open Collector Sample in
/-- One cluster is outlived by its member and dissolved, and the member is walked in the second round;
another cluster has a rooted root and is expanded. -/
theorem marks_once_outlived : ∃ c b n r, Reached c ∧ c.finishPurge = .ok (n, b) ∧
    b.clusters.size = 2 ∧
    mark b.schema (b.markPlan .empty) b.table b.clusters b.pool = .ok r ∧
    (markDeeds b.schema (b.markPlan .empty) b.table b.clusters b.pool).length ≤ 3 ∧
    (markDeeds b.schema (b.markPlan .empty) b.table b.clusters b.pool).flatten.count (.walk two) = 1 ∧
    (markDeeds b.schema (b.markPlan .empty) b.table b.clusters b.pool).flatten.count
      (.expand one) = 0 ∧
    (markDeeds b.schema (b.markPlan .empty) b.table b.clusters b.pool).flatten.count
      (.expand four) = 1 := by
  have hrun : runs .serial node (nodes 4 ++ [.formCluster one [two], .formCluster four [],
      .addRoot three, .addRoot four, .setReference three 0 (some two)]) (fun c =>
        c.finishPurge.toOption.any fun found => found.2.clusters.size == 2 &&
          (mark found.2.schema (found.2.markPlan .empty) found.2.table found.2.clusters
            found.2.pool).toOption.any fun r =>
            decide (found.2.table.isPermanent two = false ∧ r.table.Standalone two ∧
              r.table.isUnreachable two = false) &&
            (!r.clusters.contains one && decide (found.2.table.isPermanent four = false ∧
              r.clusters.contains four = true ∧ r.table.isUnreachable four = false))) = true := by
    decide +kernel
  obtain ⟨c, hr, hc⟩ := Reached.of_runs node_honest (by decide +kernel) hrun
  obtain ⟨⟨n, b⟩, hfinish, hb⟩ := except_of_toOption_any hc
  obtain ⟨hsize, hmark⟩ := Bool.and_eq_true_iff.mp hb
  obtain ⟨r, hok, htest⟩ := except_of_toOption_any hmark
  simp only [Bool.and_eq_true, Bool.not_eq_true', decide_eq_true_eq] at htest
  obtain ⟨htwo, hone, hfour⟩ := htest
  have hsize : b.clusters.size = 2 := by simpa using hsize
  obtain ⟨-, -, hall⟩ := hr.marks_once hfinish (b.markPlan_least .empty) (b.markPlan_workers .empty)
  obtain ⟨hrounds, hcounts⟩ := hall r hok
  rw [hsize] at hrounds
  refine ⟨c, b, n, r, hr, hfinish, hsize, hok, hrounds, ?_, ?_, ?_⟩
  · rw [(hcounts two).1, if_pos htwo]
  · rw [(hcounts one).2, if_neg (by simp [hone])]
  · rw [(hcounts four).2, if_pos hfour]

end TracingHeap
