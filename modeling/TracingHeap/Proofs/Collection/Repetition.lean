import TracingHeap.Proofs.Purge.Pieces
import TracingHeap.Proofs.Collection.SearchAgain

namespace TracingHeap

namespace Table

def without (t : Table) (f : Flag) : Table :=
  { t with slots := t.slots.map (Option.map (·.clear f)) }

variable {t t' : Table} {f : Flag}

theorem slot?_without (t : Table) (f : Flag) (i : Nat) :
    (t.without f).slot? i = (t.slot? i).map (·.clear f) := by
  unfold slot? without
  rw [Array.getElem?_map]
  cases t.slots[i]? <;> rfl

theorem Tidy.without (ht : t.Tidy) (f : Flag) : (t.without f).Tidy := by
  refine ⟨fun i o ho => ?_, fun h hh => ?_, fun h hh => ?_, ht.distinct, ht.bounded⟩
  · rw [slot?_without] at ho
    obtain ⟨p, hp, rfl⟩ := Option.map_eq_some_iff.mp ho
    exact ht.placed i p hp
  · simpa [Table.without] using ht.room h hh
  · have hnone := ht.vacant h hh
    rw [get?] at hnone ⊢
    rw [slot?_without, hnone]
    rfl

/-- Two tables whose objects differ in one flag at most are the same without it. -/
theorem without_eq (ht : t.Tidy) (ht' : t'.Tidy) (hf : t.Frame t') (hb : t'.boundary = t.boundary)
    (hgone : ∀ h, t.get? h = none → t'.get? h = none)
    (hkept : ∀ h o, t.get? h = some o → ∃ o', t'.get? h = some o' ∧ o'.clear f = o.clear f) :
    t'.without f = t.without f := by
  have hsize : (t'.without f).slots.size = (t.without f).slots.size := by
    simpa [Table.without] using hf.size
  refine ext_get? (ht.without f) (ht'.without f) ⟨hsize, hf.free, hf.live⟩ hb fun h => ?_
  rw [get?, get?, slot?_without, slot?_without]
  change (t'.get? h).map _ = (t.get? h).map _
  cases ho : t.get? h with
  | none => rw [hgone h ho]
  | some o =>
    obtain ⟨o', ho', he⟩ := hkept h o ho
    rw [ho', Option.map_some, Option.map_some, he]

end Table

theorem Table.SeededAs.cells {t : Table} {keep : Flags} {h : Handle} {o o' : Object}
    (a : t.SeededAs keep h o o') : o'.cells = o.cells := by
  rcases a.cases with rfl | rfl
  · rfl
  · unfold Object.seeded
    dsimp only
    split <;> rfl

namespace Collector.Collected

variable {b d : Collector} {keep : Flags} {seeds roots : List Handle} {t₀ u v : Table} {r : Stand}
  {ks : Clusters} {cleared : Nat} {g h : Handle} {o : Object}
  (a : b.Collected keep seeds t₀ r roots u ks cleared v d)
include a

/-- A reference that is there was there when the dead were found. -/
theorem edge_back {k : Strength} (he : Edge d.schema d.table h k g) :
    Edge b.schema v h k g ∧ Edge b.schema u h k g := by
  rw [a.schema] at he
  have hv := a.settled.orderly
  have hu := a.judged.tracing.orderly
  have hedge := a.spares.edge_back hv.regular hv.fits he
  exact ⟨hedge, a.nulls.drops.edge_back hu.regular hu.fits hedge⟩

/-- A flag of an object that is there was there when the dead were found. -/
theorem get?_back (ho : d.table.get? h = some o) : ∃ q p, v.get? h = some q ∧ u.get? h = some p ∧
    q.isUnreachable = o.isUnreachable ∧ p.has .pendingKill = o.has .pendingKill := by
  obtain ⟨q, hq, hw⟩ := a.spares.back h o ho
  obtain ⟨p, hp, -, -, hflags⟩ := a.nulls.drops.back hq
  refine ⟨q, p, hq, hp, hw.isUnreachable.symm, ?_⟩
  rw [hw.flag _ (by decide) (by decide)]
  exact (congrArg (Flags.has · .pendingKill) hflags).symm

/-- A reference of an object outside clusters leads to nothing that was killed, unless it leads into the
pool. -/
theorem tenable (ho : d.table.get? h = some o) (hp : d.table.isPermanent h = false)
    (hn : o.owner = none) (hroot : o.has .clusterRoot = false) {k : Strength}
    (he : Edge d.schema d.table h k g) : d.table.Tenable g := by
  have hawake := a.awake_back ⟨o, ho, a.none_flagged ho hp⟩
  obtain ⟨q, hq, hu⟩ := hawake
  obtain ⟨q', hq', hflags, hown⟩ := a.get?_awake hq hu
  rw [ho] at hq'
  cases hq'
  have hlone : u.rootOf h = none := by
    have hroot' : q.has .clusterRoot = false := by
      rw [Object.has, ← hflags]
      exact hroot
    rw [Table.rootOf_eq hq, ← hown, hn, hroot']
    rfl
  have hp' := (a.isPermanent h).symm.trans hp
  rcases a.judged.tenable ⟨q, hq, hu⟩ hp' hlone (a.edge_back he).2 with hpg | hk
  · exact .inl ((a.isPermanent g).trans hpg)
  · refine .inr ?_
    cases hg : d.table.get? g with
    | none => simp [Table.has, hg]
    | some x =>
      obtain ⟨-, p, -, hx, -, hkill⟩ := a.get?_back hg
      rw [Table.has_of_get? hx] at hk
      rw [Table.has_of_get? hg, ← hkill, hk]

section

variable {seeds' : List Handle} {s₀ s₁ : Table} {cs : Clusters} {tally : Tally}
  (f : d.Surveyed keep seeds' s₀ cs s₁ tally)
include f

/-- The second trace empties no slot. -/
theorem uncut {o₁ o₂ : Object} (ho : d.table.get? h = some o) (ho₁ : s₀.get? h = some o₁)
    (ho₂ : s₁.get? h = some o₂) : o₂.cells = o.cells := by
  have p := f.tracing.alike f.same
  have hs := (f.flooded.struck.objects.of_some ho₁ ho₂).slots
  have hsown := f.sown.of_some ho ho₁
  have hadv := f.flooded.advances.of_some ho₁ ho₂
  rw [← hsown.cells]
  have hrefl : o₁.Thins d.schema (fun _ => False) o₁ := .refl o₁
  refine hadv.1.toThins.cells_ext hrefl fun x => ?_
  refine (hs x).resolve_right fun hcut => ?_
  obtain ⟨⟨hhit, -, q, k, g, hq, hn, hroot, hrep, hslot, hten⟩, -⟩ := hcut
  rw [ho₁] at hq
  cases hq
  have hp₀ := Tracer.hits_collectable p (fun h hh => (f.tracing.queued h hh).1) hhit
  have hp := (f.sown.isPermanent h).symm.trans hp₀
  have hedge := f.sound.settled.edge_seeded f.sown ⟨o₁, x, ho₁, hrep, hslot⟩
  rw [hsown.owner] at hn
  rw [hsown.has (by decide) (by decide) (by decide)] at hroot
  refine hten ((a.tenable ho hp hn hroot hedge).imp (f.sown.isPermanent g).trans fun hk => ?_)
  exact (f.toPlanted.has (by decide) (by decide) (by decide) g).trans hk

/-- After the second trace an object has the flag `unreachable` if it had it before. -/
theorem unreachable_again {o₂ : Object} (ho : d.table.get? h = some o) (ho₂ : s₁.get? h = some o₂) :
    o₂.isUnreachable = o.isUnreachable := by
  obtain ⟨o₁, ho₁, hsown⟩ := f.sown.kept h o ho
  have hs := f.flooded.struck.objects.of_some ho₁ ho₂
  cases hp : d.table.isPermanent h with
  | false =>
    rw [a.none_flagged ho hp]
    exact (a.awake_again f hp ho).of_get? ho₂
  | true =>
    have hsame := hsown.permanent hp
    subst hsame
    cases hu : o₁.isUnreachable with
    | false =>
      cases hu₂ : o₂.isUnreachable with
      | false => rfl
      | true => exact (hs.kept hu₂).symm.trans hu
    | true =>
      cases hu₂ : o₂.isUnreachable with
      | true => rfl
      | false =>
        have hp₀ := Tracer.hits_collectable (f.tracing.alike f.same)
          (fun h hh => (f.tracing.queued h hh).1) (hs.claimed hu hu₂).1
        rw [f.sown.isPermanent, hp] at hp₀
        cases hp₀

/-- The second trace leaves the heap as it is, but for the marks of members. -/
theorem same_again (hd : d.table.Paired) :
    s₁.without .reachableInCluster = d.table.without .reachableInCluster := by
  have hpaired : s₁.Paired :=
    (Retains.of_struck f.flooded.advances f.flooded.struck cs).paired (f.toPlanted.paired hd)
  refine Table.without_eq f.sound.settled.orderly.tidy f.flooded.tracing.orderly.tidy
    (f.frame.trans f.flooded.struck.toFrame)
    (f.flooded.struck.objects.boundary.trans f.sown.boundary)
    (fun h hg => f.flooded.struck.objects.gone h (f.sown.gone h hg)) fun h o ho => ?_
  obtain ⟨o₁, ho₁, hsown⟩ := f.sown.kept h o ho
  obtain ⟨o₂, ho₂, hs⟩ := f.flooded.struck.objects.kept h o₁ ho₁
  have hthin : o.Thins d.schema (fun _ => False) o₁ := hsown.thins
  have hu := a.unreachable_again f ho ho₂
  have hn : o₂.has .noStrongReference = o.has .noStrongReference := by
    cases hflag : o.isUnreachable with
    | true =>
      cases hp : d.table.isPermanent h with
      | true =>
        have he := hsown.permanent hp
        subst he
        exact hs.still (hu.trans hflag)
      | false =>
        rw [a.none_flagged ho hp] at hflag
        cases hflag
    | false =>
      have hnone : ∀ {t : Table} {q : Object}, t.Paired → t.get? h = some q →
          q.isUnreachable = false → q.has .noStrongReference = false := by
        intro t q ht hq hquiet
        cases hx : q.has .noStrongReference with
        | false => rfl
        | true => exact (ht h q hq hx).symm.trans hquiet
      rw [hnone hd ho hflag, hnone hpaired ho₂ (hu.trans hflag)]
  have hrest : o₂.flags.remove .marks = o.flags.remove .marks := by
    refine hs.rest.trans ?_
    rcases hsown.cases with rfl | rfl
    · rfl
    · exact o.remove_marks_seeded _
  have hcells := a.uncut f ho ho₁ ho₂
  refine ⟨o₂, ho₂, Object.eq_of_same ⟨hs.handle.trans hthin.handle, hs.classId.trans hthin.classId,
    hs.name.trans hthin.name⟩ ?_ (hs.owner.trans hsown.owner) hcells⟩
  refine Flags.ext_marks ?_ ?_ ?_ ?_
  · rw [Object.remove_marks_clear (by decide), Object.remove_marks_clear (by decide), hrest]
  · simpa [Object.isUnreachable, Object.has, Object.clear] using hu
  · simp [Object.clear]
  · simpa [Object.has, Object.clear] using hn

/-- No cluster is dead after the second trace. -/
theorem live_again {c : Cluster} (hc : c ∈ cs.list) : s₁.isUnreachable c.root = false := by
  have p := f.flooded.tracing
  obtain ⟨e, he, hec⟩ := f.same.back c hc
  obtain ⟨o, ho, -⟩ := f.sound.settled.orderly.enrolled.root e he
  rw [← hec.root] at ho
  cases hp : d.table.isPermanent c.root with
  | false => exact (a.awake_again f hp ho).isUnreachable
  | true =>
    refine (p.pool c hc ?_).isUnreachable
    rw [a.isPermanent_again f, ← a.isPermanent, hp]

/-- Nothing is left to be nulled after the second trace. -/
theorem not_stale (x : Site) : ¬ s₁.Stale d.schema x := by
  rintro ⟨-, o₂, g, ho₂, hrep, hslot, hu⟩
  have he : Edge d.schema s₁ x.object .weak g := ⟨o₂, x.address, ho₂, hrep, hslot⟩
  have ho := f.tracing.orderly
  have hedge := f.sound.settled.edge_seeded f.sown
    (he.back ho.regular ho.fits f.flooded.advances fun _ _ _ hr => hr.1.toThins)
  obtain ⟨q₂, hq₂, hflag⟩ : ∃ q₂, s₁.get? g = some q₂ ∧ q₂.isUnreachable = true := by
    cases hg : s₁.get? g with
    | none => simp [Table.isUnreachable, Table.has, hg] at hu
    | some q₂ => exact ⟨q₂, rfl, by rwa [Table.isUnreachable_of_get? hg] at hu⟩
  obtain ⟨q₁, hq₁, -⟩ := f.flooded.struck.objects.back hq₂
  obtain ⟨q, hq, -⟩ := f.sown.back hq₁
  rw [a.unreachable_again f hq hq₂] at hflag
  cases hp : d.table.isPermanent x.object with
  | false =>
    obtain ⟨y, b, hy, -⟩ := id hedge
    have hawake := f.sound.settled.linked _ .weak g hedge ⟨y, hy, a.none_flagged hy hp⟩ (.inl rfl)
    rw [hawake.of_get? hq] at hflag
    cases hflag
  | true =>
    obtain ⟨y, -, hy, -, hsame, -⟩ := a.get?_back hq
    have hclean := a.clean x.object ((a.isPermanent _).symm.trans hp) g (a.edge_back hedge).1
    rw [Table.isUnreachable_of_get? hy, hsame, hflag] at hclean
    cases hclean

end

/-- A mark of the heap is over after its first trace, and dissolves nothing. -/
theorem surveyed {seeds' : List Handle} {s₀ : Table} {r' : Stand} (hd : d.Sound)
    (planted : d.Planted keep seeds' s₀)
    (run : MarksRounds d.schema d.settings.memberKeepsCluster seeds' ⟨s₀, d.clusters, .empty, 0⟩ r') :
    ∃ cs, d.Surveyed keep seeds' s₀ cs r'.table r'.tally ∧ cs.Alike r'.clusters ∧
      r'.dissolved = 0 := by
  have hnone : ∀ {cs : Clusters} {t : Table} {tally : Tally}, d.Surveyed keep seeds' s₀ cs t tally →
      ∀ c ∈ cs.list, Clusters.outlived t c = false := by
    intro cs t tally f c hc
    rw [Clusters.outlived, a.live_again f hc, Bool.false_and]
  cases run with
  | last same floods order scatters =>
    have b := Turned.intro planted.tracing same floods order scatters
    have f : d.Surveyed keep seeds' s₀ _ _ _ := ⟨planted, hd, same, b.flooded⟩
    have hroots := Clusters.roots_eq_nil order (hnone f)
    subst hroots
    obtain ⟨-, rfl, alike⟩ := scatters.of_nil
    exact ⟨_, f, alike, rfl⟩
  | next same floods order scatters some others =>
    have b := Turned.intro planted.tracing same floods order scatters
    have f : d.Surveyed keep seeds' s₀ _ _ _ := ⟨planted, hd, same, b.flooded⟩
    have hroots := Clusters.roots_eq_nil order (hnone f)
    subst hroots
    exact absurd scatters.of_nil.1 some

/-- A search in the heap finds nothing. -/
theorem finds_again (hd : d.table.Paired) {stats : Statistics} {t : Table} {cs : Clusters}
    (found : d.Finds keep stats t cs) :
    t.without .reachableInCluster = d.table.without .reachableInCluster ∧
      (∀ h o, t.get? h = some o → t.isPermanent h = false → o.isUnreachable = false) ∧
      stats.dissolved = 0 ∧ stats.weakCleared = 0 := by
  have hsound := a.idle.sound
  cases found with
  | @intro _ _ _ roots _ _ _ _ _ r' _ _ _ _ _ seeded marked order scattered weak swept =>
  have hsearch := Finds.search hsound seeded marked order scattered weak swept
  obtain ⟨ks', f, alike, hdissolved⟩ := a.surveyed hsound (hsound.planted seeded) marked
  have hroots : roots = [] := by
    refine Clusters.roots_eq_nil order fun c hc => ?_
    obtain ⟨e, he, hec⟩ := alike.back c hc
    rw [hec.root]
    exact a.live_again f he
  subst hroots
  obtain ⟨-, rfl, -⟩ := scattered.of_nil
  have hstale := a.not_stale f
  have ht := f.flooded.tracing.orderly.tidy
  obtain ⟨rfl, rfl⟩ := (Table.Nulls.refl r'.table).unique ht hsearch.nulls
    (fun x hx => absurd hx (hstale x)) (fun x hx => absurd hx (hstale x))
  refine ⟨a.same_again f hd, fun h o ho hp => ?_, hdissolved, rfl⟩
  obtain ⟨o₁, ho₁, -⟩ := f.flooded.struck.objects.back ho
  obtain ⟨q, hq, -⟩ := f.sown.back ho₁
  rw [a.isPermanent_again f, ← a.isPermanent] at hp
  exact (a.awake_again f hp hq).of_get? ho

end Collector.Collected

/-- Where nothing is dissolved, the clusters stay as they are, in their order. -/
theorem Clusters.dissolveOutlived_zero {s : Schema} {t t' : Table} {cs cs' : Clusters}
    {survivors : List Handle} (hok : cs.dissolveOutlived s t = .ok (0, survivors, t', cs')) :
    cs' = cs := by
  unfold dissolveOutlived at hok
  obtain ⟨last, hlast, hok⟩ := except_bind_ok hok
  obtain ⟨hlen, rfl⟩ := Prod.mk.inj (Except.ok.inj hok)
  rw [List.eq_nil_of_length_eq_zero hlen] at hlast
  cases hlast
  rfl

theorem Clusters.dissolveUnreachable_zero {s : Schema} {t t' : Table} {cs cs' : Clusters}
    (hok : cs.dissolveUnreachable s t = .ok (0, t', cs')) : cs' = cs := by
  unfold dissolveUnreachable at hok
  obtain ⟨last, hlast, hok⟩ := except_bind_ok hok
  obtain ⟨hlen, hsame⟩ := Prod.mk.inj (Except.ok.inj hok)
  rw [List.eq_nil_of_length_eq_zero hlen] at hlast
  cases hlast
  exact (Prod.mk.inj hsame).2.symm

/-- The rounds of a mark count what they dissolve. The induction is on the rounds. -/
theorem clusters_of_markRounds {s : Schema} {plan : MarkPlan} (fuel : Nat) :
    ∀ {frontier : List Handle} {r r' : MarkResult}, markRounds s plan fuel frontier r = .ok r' →
      r.dissolved ≤ r'.dissolved ∧ (r'.dissolved = r.dissolved → r'.clusters = r.clusters) := by
  induction fuel with
  | zero =>
    intro frontier r r' hok
    cases hok
  | succ fuel ih =>
    intro frontier r r' hok
    rw [markRounds] at hok
    obtain ⟨traced, -, hok⟩ := except_bind_ok hok
    obtain ⟨⟨count, survivors, t, cs⟩, hdissolve, hok⟩ := except_bind_ok hok
    dsimp only at hok
    have hzero : count = 0 → cs = r.clusters := by
      rintro rfl
      exact Clusters.dissolveOutlived_zero hdissolve
    split at hok
    · cases hok
      exact ⟨Nat.le_add_right _ _, fun he => hzero (by dsimp only at he; omega)⟩
    · obtain ⟨hle, hsame⟩ := ih hok
      dsimp only at hle hsame
      refine ⟨by omega, fun he => ?_⟩
      exact (hsame (by omega)).trans (hzero (by omega))

namespace Collector

variable {c d e : Collector} {keep : Flags} {stats stats' : Statistics} {n : Nat}

/-- A search that dissolves nothing leaves the clusters as they are, in their order. -/
theorem clusters_of_condemn (hok : c.condemn keep = .ok (stats, d)) (hnone : stats.dissolved = 0) :
    d.clusters = c.clusters := by
  obtain ⟨-, r, hmark, unhashed, t₁, cs₁, hdissolve, t₂, cleared, -, rfl, rfl⟩ := condemn_ok hok
  obtain ⟨hrounded, hunhashed⟩ := Nat.add_eq_zero_iff.mp hnone
  subst hunhashed
  obtain ⟨seeds, considered, t, -, hrounds, -⟩ := mark_ok hmark
  exact (Clusters.dissolveUnreachable_zero hdissolve).trans
    ((clusters_of_markRounds _ hrounds).2 hrounded)

/-- Where no purge is pending there is none to finish. -/
theorem finishPurge_idle (hidle : c.purge.required = false) : c.finishPurge = .ok (0, c) := by
  rw [finishPurge_eq, runPurge_eq, PurgeState.run_idle hidle]
  rfl

/-- The phases of a collection with its purge, and what it reports of them. -/
theorem collect_full_ok (hok : c.collect keep true = .ok (stats, d)) :
    ∃ n b found m freed e, ({ c with misses := 0 } : Collector).finishPurge = .ok (n, b) ∧
      b.condemn keep = .ok (found, m) ∧ m.finishPurge = .ok (freed, e) ∧
      stats = { found with purged := n + freed, phases := stats.phases } ∧
      d = { e with last := some stats } := by
  obtain ⟨n, b, hfinish, found, m, hcondemn, freed, e, hfreed, hstats, hd⟩ := collect_ok hok
  exact ⟨n, b, found, m, freed, e, hfinish, hcondemn, hfreed, hstats, hd⟩

/-- Finishing a purge that has only been requested. -/
theorem Requested.finished (hd : c.Requested d) (hok : d.finishPurge = .ok (n, e)) :
    e.table = d.table.swept d.table.boundary ∧ e.clusters = d.clusters ∧
      n = (d.table.flaggedFrom d.table.boundary).length := by
  obtain ⟨progress, hcall, rfl⟩ := finishPurge_ok hok
  obtain ⟨p, hrun, rfl⟩ := runPurge_ok hcall
  obtain ⟨hran, hend, -⟩ := PurgeState.ran_of_run (p := d.pending) hd.standing hrun
  obtain ⟨hended, hcount⟩ := ended_of_completed hd.standing hd.required hd.outside hran (hend rfl)
  refine ⟨hended.table.trans ?_, hended.clusters, hcount.trans hd.remaining⟩
  rw [PurgeState.goal, if_pos (show d.pending.purge.required = true from hd.required), hd.ahead]
  rfl

/-- What a search and the purge after it leave, once the attempts that have missed are forgotten. -/
theorem Search.collected {b m : Collector} {seeds roots : List Handle} {t₀ u : Table} {r : Stand}
    {cleared : Nat} (a : b.Search keep seeds t₀ r roots u m.clusters cleared m.table)
    (marked : MarksRounds b.schema b.settings.memberKeepsCluster seeds ⟨t₀, b.clusters, .empty, 0⟩ r)
    (hb : b.Idle) (hp : b.table.Paired) (hcondemn : b.condemn keep = .ok (stats, m))
    (he : m.Purged d) (hd : d.Idle) :
    b.Collected keep seeds t₀ r roots u m.clusters cleared m.table d := by
  have hm := hb.sound.condemned hcondemn
  exact ⟨a, marked, hp, hb.sound.settled.orderly.enrolled, he.spares, he.clusters,
    he.schema.trans hm.2.1, he.settings.trans hm.2.2.1, hd⟩

theorem Idle.collected {b m : Collector} (hb : b.Idle) (hp : b.table.Paired)
    (hcondemn : b.condemn keep = .ok (stats, m)) (he : m.Purged d) (hd : d.Idle) :
    ∃ (seeds : List Handle) (t₀ : Table) (r : Stand) (roots : List Handle) (u : Table)
      (ks : Clusters) (cleared : Nat) (v : Table),
      b.Collected keep seeds t₀ r roots u ks cleared v d := by
  obtain ⟨_, _, _, _, _, hsearch, marked⟩ := search_of_condemn hb.sound hcondemn
  exact ⟨_, _, _, _, _, _, _, _, hsearch.collected marked hb hp hcondemn he hd⟩

theorem Standing.collected (hs : c.Standing) (hc : c.Sound) (hp : c.table.Paired)
    (hok : c.collect keep true = .ok (stats, d)) :
    ∃ (b : Collector) (seeds : List Handle) (t₀ : Table) (r : Stand) (roots : List Handle) (u : Table)
      (ks : Clusters) (cleared : Nat) (v : Table),
      b.Collected keep seeds t₀ r roots u ks cleared v { d with misses := 0 } := by
  obtain ⟨n, b, found, m, freed, e, hfinish, hcondemn, hfreed, -, rfl⟩ := collect_full_ok hok
  obtain ⟨hpurged, hb⟩ := hs.first_phase hc hfinish
  have he := (finishPurge_spec (hb.sound.condemned hcondemn).1).ok hfreed
  obtain ⟨hstanding, hidle⟩ := (hb.requested hcondemn).standing.finishPurge hfreed
  exact ⟨b, hb.collected (hp.spares hpurged.spares) hcondemn
    (d := { e with misses := 0, last := some stats })
    ⟨he.spares, he.schema, he.clusters, he.settings, ⟨he.sound.settled, he.sound.purge⟩⟩
    ⟨⟨he.sound.settled, he.sound.purge⟩, hstanding, hidle⟩⟩

/-- A collection right after another one, with the same keep flags. -/
theorem Collected.again {b : Collector} {seeds roots : List Handle} {t₀ u v : Table} {r : Stand}
    {ks : Clusters} {cleared : Nat}
    (a : b.Collected keep seeds t₀ r roots u ks cleared v { d with misses := 0 })
    (hpaired : d.table.Paired) (again : d.collect keep true = .ok (stats', e)) :
    stats'.unreachable = 0 ∧ stats'.dissolved = 0 ∧ stats'.weakCleared = 0 ∧ stats'.purged = 0 ∧
      e.clusters = d.clusters ∧
      e.table.without .reachableInCluster = d.table.without .reachableInCluster := by
  obtain ⟨n, b', found, m, freed, f, hfinish, hcondemn, hfreed, hstats, rfl⟩ :=
    collect_full_ok again
  rw [finishPurge_idle a.idle.idle] at hfinish
  cases hfinish
  obtain ⟨hsame, hquiet, hdissolved, hcleared⟩ :=
    a.finds_again hpaired (finds_of_condemn hcondemn).1
  have hm := a.idle.requested hcondemn
  obtain ⟨htable, hclusters, hcount⟩ := hm.finished hfreed
  have hnone : m.table.flaggedFrom m.table.boundary = [] := by
    refine List.eq_nil_iff_forall_not_mem.mpr fun h hh => ?_
    obtain ⟨⟨o, ho, hu⟩, hle⟩ := hm.standing.tidy.mem_flaggedFrom.mp hh
    have hp : m.table.isPermanent h = false := by
      simpa [Table.isPermanent] using hle
    rw [hquiet h o ho hp] at hu
    cases hu
  have hunreachable := condemn_unreachable hcondemn
  rw [hnone] at hunreachable hcount
  rw [Table.swept, hnone] at htable
  rw [hstats]
  refine ⟨hunreachable, hdissolved, hcleared, ?_, ?_, ?_⟩
  · rw [hcount]
    rfl
  · have hkept := clusters_of_condemn hcondemn hdissolved
    exact hclusters.trans hkept
  · exact (congrArg (Table.without · .reachableInCluster) htable).trans hsame

end Collector

/-- Collecting again finds nothing. The second of two collections in a row with the same keep flags
reports nothing unreachable, dissolved, nulled or purged, leaves the clusters as they are, in their
order, and leaves the table as it is but for the flag `reachableInCluster`. The heap is a reached one, so its
classes are honest, and its pool was never closed while the object in slot 4294967295 was in a cluster. -/
theorem Reached.collection_repeats {c d e : Collector} (hr : Reached c) {keep : Flags}
    {stats stats' : Statistics} (first : c.collect keep true = .ok (stats, d))
    (again : d.collect keep true = .ok (stats', e)) :
    stats'.unreachable = 0 ∧ stats'.dissolved = 0 ∧ stats'.weakCleared = 0 ∧ stats'.purged = 0 ∧
      e.clusters = d.clusters ∧
      e.table.without .reachableInCluster = d.table.without .reachableInCluster := by
  obtain ⟨b, seeds, t₀, r, roots, u, ks, cleared, v, a⟩ :=
    hr.standing.collected hr.sound hr.paired first
  exact a.again (Collector.paired_of_collect hr.sound hr.paired first) again

open Collector Sample in
/-- The first collection dissolves a cluster whose member is referenced from outside, frees its root and
nulls a weak reference to it; the second one has nothing to do. -/
theorem collection_repeats_outlived : ∃ (c d e : Collector) (stats stats' : Statistics), Reached c ∧
    c.clusters.list.isEmpty = false ∧ d.clusters.list.isEmpty = true ∧
    c.table.contains three = true ∧ d.table.contains three = false ∧
    c.collect .empty true = .ok (stats, d) ∧ d.collect .empty true = .ok (stats', e) ∧
      stats'.unreachable = 0 ∧ stats'.dissolved = 0 ∧ stats'.weakCleared = 0 ∧ stats'.purged = 0 ∧
      e.clusters = d.clusters ∧
      e.table.without .reachableInCluster = d.table.without .reachableInCluster := by
  have hrun : runs .serial node (nodes 4 ++ [.addRoot one, .setReference three 0 (some four),
      .formCluster three [], .setReference one 0 (some four), .setReference one 1 (some three)])
      (fun c => (!c.clusters.list.isEmpty && c.table.contains three) &&
        c.leaves .empty true fun d => (d.clusters.list.isEmpty && !d.table.contains three) &&
          d.leaves .empty true fun _ => true) = true := by
    decide +kernel
  obtain ⟨c, hr, hc⟩ := Reached.of_runs node_honest (by decide +kernel) hrun
  obtain ⟨hbefore, hleaves⟩ := Bool.and_eq_true_iff.mp hc
  obtain ⟨stats, d, first, hd⟩ := collect_of_leaves hleaves
  obtain ⟨hafter, hagain⟩ := Bool.and_eq_true_iff.mp hd
  obtain ⟨stats', e, again, -⟩ := collect_of_leaves hagain
  simp only [Bool.and_eq_true, Bool.not_eq_true'] at hbefore hafter
  exact ⟨c, d, e, stats, stats', hr, hbefore.1, hafter.1, hbefore.2, hafter.2, first, again,
    hr.collection_repeats first again⟩

def Sample.peers (o : Object) : Bool := o.slot? ⟨1, .here⟩ != some none

/-- A root refers weakly to an object, and holds another one in its bag. -/
def peering : List Operation :=
  Sample.nodes 4 ++ [.addRoot Sample.one, .setReference Sample.one 1 (some Sample.three),
    .putCell Sample.one 2 (.container (.bag #[some Sample.four] #[]))]

open Collector Sample in
/-- A class lists the items of a bag as strong references while the weak slot of the object is filled. The
first collection nulls that slot, so the second one finds an object that nothing keeps any more. -/
theorem repeated_yet_purged : ∃ (c d e : Collector) (stats stats' : Statistics),
    (start .serial 1).performAll (.registerClass (fickle peers) :: peering) = .ok c ∧
    c.collect .empty true = .ok (stats, d) ∧ d.collect .empty true = .ok (stats', e) ∧
    stats'.unreachable = 1 ∧ stats'.weakCleared = 1 ∧ stats'.purged = 1 ∧
    d.table.contains four = true ∧ e.table.contains four = false := by
  have hrun : runs .serial (fickle peers) peering (fun c =>
      (c.collect .empty true).toOption.any fun first => first.2.table.contains four &&
        (first.2.collect .empty true).toOption.any fun again => !again.2.table.contains four &&
          decide (again.1.unreachable = 1 ∧ again.1.weakCleared = 1 ∧ again.1.purged = 1)) = true := by
    decide +kernel
  obtain ⟨c, hc, htest⟩ := performAll_of_runs hrun
  obtain ⟨⟨stats, d⟩, first, hd⟩ := except_of_toOption_any htest
  obtain ⟨hbefore, hagain⟩ := Bool.and_eq_true_iff.mp hd
  obtain ⟨⟨stats', e⟩, again, he⟩ := except_of_toOption_any hagain
  obtain ⟨hafter, hcounts⟩ := Bool.and_eq_true_iff.mp he
  obtain ⟨hdead, hcleared, hpurged⟩ := of_decide_eq_true hcounts
  exact ⟨c, d, e, stats, stats', hc, first, again, hdead, hcleared, hpurged, hbefore,
    by simpa using hafter⟩

end TracingHeap
