import TracingHeap.Proofs.Mark.WorkOnce
import TracingHeap.Proofs.Collection.RepetitionStart
import TracingHeap.Proofs.Scratch.Peak

namespace TracingHeap

open ScratchPool (Stretched)

section

variable {s : Schema} {plan : MarkPlan} {t t₀ : Table} {cs : Clusters} {pool : ScratchPool}
  {r : MarkResult} {seeds : List Handle} {considered : Nat}

/-- Where members keep their clusters, a mark dissolves none. -/
theorem MarksRounds.dissolved_of_keeping {good : Handle → Prop} {frontier : List Handle}
    {st st' : Stand} (run : MarksRounds s true frontier st st')
    (p : Tracing s st.clusters true good (· ∈ frontier) (· ∈ st.tally.weak) st.table) :
    st'.dissolved = st.dissolved := by
  cases run with
  | last same floods order scatters =>
    rw [(Turned.intro p same floods order scatters).idle order]
    rfl
  | next same floods order scatters some others =>
    have b := Turned.intro p same floods order scatters
    have hroots := Clusters.roots_eq_nil order (b.flooded.tracing.not_outlived (.inl rfl))
    subst hroots
    exact absurd scatters.of_nil.1 some

/-- A mark that dissolves nothing leaves the clusters as they are, and is over after one trace. -/
theorem mark_traced (hok : mark s plan t cs pool = .ok r)
    (hseed : seed plan.keep t = .ok (seeds, considered, t₀)) (hnone : r.dissolved = 0) :
    r.clusters = cs ∧ ∃ traced,
      (Tracer.mk s cs plan.memberKeepsCluster).trace plan.waves seeds t₀ pool.acquire .empty =
        .ok traced ∧ r.pool = traced.pool.acquire.release ∧
      (Tracer.mk s cs plan.memberKeepsCluster).traceDeeds plan.waves seeds t₀ pool.acquire .empty ∈
        markDeeds s plan t cs pool := by
  obtain ⟨_, _, _, hfound, hrounds, -⟩ := mark_ok hok
  unfold markDeeds
  rw [hseed] at hfound ⊢
  cases hfound
  have hclusters := (clusters_of_markRounds _ hrounds).2 hnone
  refine ⟨hclusters, ?_⟩
  rw [markRounds_succ] at hrounds
  obtain ⟨⟨survivors, r₁⟩, hround, hrest⟩ := except_bind_ok hrounds
  rw [doneAfter_ok]
  dsimp only
  rw [markRoundsDeeds]
  obtain ⟨traced, htrace, count, t₁, cs₁, hdissolve, rfl⟩ := markRound_ok hround
  refine ⟨traced, htrace, ?_, List.mem_cons_self ..⟩
  dsimp only at hrest
  have hcount : count = 0 := by
    split at hrest
    · cases hrest
      dsimp only at hnone
      omega
    · have hle := (clusters_of_markRounds _ hrest).1
      dsimp only at hle
      omega
  subst hcount
  unfold Clusters.dissolveOutlived at hdissolve
  obtain ⟨last, hlast, hdissolve⟩ := except_bind_ok hdissolve
  obtain ⟨hlen, hfound⟩ := Prod.mk.inj (Except.ok.inj hdissolve)
  rw [List.eq_nil_of_length_eq_zero hlen] at hlast
  cases hlast
  obtain ⟨rfl, -⟩ := Prod.mk.inj hfound
  cases hrest
  rfl

end

def MarkResult.stand (r : MarkResult) : Stand :=
  ⟨r.table, r.clusters, ⟨r.weak, r.scanned, r.waves⟩, r.dissolved⟩

namespace Collector

structure Marks (c : Collector) (keep : Flags) (seeds : List Handle) (t₀ : Table) (r : MarkResult) :
    Prop where
  seeded : ∃ considered, seed keep c.table = .ok (seeds, considered, t₀)
  marked : mark c.schema (c.markPlan keep) c.table c.clusters c.pool = .ok r

variable {b c d m : Collector} {keep : Flags} {stats : Statistics} {seeds roots : List Handle}
  {t₀ s₀ u v : Table} {ks : Clusters} {cleared : Nat} {r r' : MarkResult}

theorem Marks.rounds (a : c.Marks keep seeds t₀ r) :
    MarksRounds c.schema c.settings.memberKeepsCluster seeds ⟨t₀, c.clusters, .empty, 0⟩ r.stand := by
  obtain ⟨⟨considered, hseed⟩, hmark⟩ := a
  obtain ⟨_, _, _, hfound, hrounds, -⟩ := mark_ok hmark
  change seed keep c.table = _ at hfound
  rw [hseed] at hfound
  cases hfound
  exact (marksRounds_of_markRounds (c.markPlan_least keep) _ hrounds).1

/-- A search for the dead makes a mark. -/
theorem marks_of_condemn (hc : c.Sound) (hok : c.condemn keep = .ok (stats, m)) :
    ∃ (seeds : List Handle) (t₀ : Table) (r : MarkResult) (roots : List Handle) (u : Table)
      (cleared : Nat), c.Marks keep seeds t₀ r ∧ m.pool = r.pool ∧
        c.Search keep seeds t₀ r.stand roots u m.clusters cleared m.table := by
  obtain ⟨-, r, hmark, unhashed, t, cs, hdissolve, t', cleared, hclear, rfl, -⟩ := condemn_ok hok
  obtain ⟨seeds, considered, t₀, hseed, -⟩ := mark_ok hmark
  have a : c.Marks keep seeds t₀ r := ⟨⟨considered, hseed⟩, hmark⟩
  obtain ⟨-, survivors, hscatters⟩ := Clusters.scatters_of_dissolveUnreachable hdissolve
  exact ⟨seeds, t₀, r, _, t, cleared, a, rfl,
    Finds.search hc hseed a.rounds (.refl _) hscatters (.refl _) hclear⟩

namespace Collected

variable (a : b.Collected keep seeds t₀ r.stand roots u ks cleared v d)
  (first : b.Marks keep seeds t₀ r) (again : d.Marks keep seeds s₀ r') (hpool : d.pool = r.pool)
  (hout : b.pool.inUse = 0) (hserial : (b.markPlan keep).waves.workers = none)
  (hserial' : (d.markPlan keep).waves.workers = none)

include a again in
/-- The second mark dissolves nothing. -/
theorem none_dissolved : r'.dissolved = 0 := by
  obtain ⟨considered, hseed⟩ := again.seeded
  obtain ⟨-, -, -, hnone⟩ := a.surveyed a.idle.sound (a.idle.sound.planted hseed) again.rounds
  exact hnone

include a first again hpool hout hserial hserial' in
/-- Where members keep their clusters, the two marks go abreast. -/
theorem stock_abreast (hkeep : b.settings.memberKeepsCluster = true) (hord : b.schema.Ordered)
    (hkept : ∀ c ∈ b.clusters.list, b.table.isPermanent c.root = false → ∀ h ∈ c.objects,
      v.Awake h → c ∈ ks.list) : r'.pool.stock = r.pool.stock := by
  have hd := a.idle.sound.settled
  obtain ⟨considered, hseed⟩ := first.seeded
  obtain ⟨considered', hseed'⟩ := again.seeded
  have f := a.idle.sound.planted hseed'
  have hfirst : r.dissolved = 0 := by
    have hrounds := a.marked
    have p := a.tracing
    rw [hkeep] at hrounds p
    exact hrounds.dissolved_of_keeping p
  obtain ⟨-, traced, htrace, hlast, -⟩ := mark_traced first.marked hseed hfirst
  obtain ⟨-, traced', htrace', hlast', -⟩ :=
    mark_traced again.marked hseed' (a.none_dissolved again)
  have k : (⟨b.schema, b.clusters, b.settings.memberKeepsCluster⟩ : Tracer).Knows b.schema
      b.settings.memberKeepsCluster d.table d.clusters := a.knows hkept
  have k' : (⟨d.schema, d.clusters, d.settings.memberKeepsCluster⟩ : Tracer).Knows b.schema
      b.settings.memberKeepsCluster d.table d.clusters :=
    ⟨a.schema, congrArg Settings.memberKeepsCluster a.settings,
      fun c hc _ => Clusters.get?_of_mem hd.orderly.enrolled.distinct hc⟩
  have hfrontier : ∀ h ∈ seeds, d.table.Collectable h := by
    intro h hh
    obtain ⟨hp, o, ho, -⟩ := (f.chosen h).mp hh
    exact ⟨⟨o, ho⟩, hp⟩
  have hgrown : b.pool.stock ≤ r.pool.stock := by
    rw [← (mark_lent first.marked).replayed]
    exact ScratchPool.stock_le_after _ _
  have hstart : b.pool.Ahead r.pool.stock d.pool := by
    refine ⟨?_, ?_⟩
    · rw [hpool, mark_balanced first.marked, hout]
    · rw [hpool, Int.max_eq_left hgrown]
  have hend := Tracer.trace_abreast k k' (a.schema ▸ hd) hord hserial hserial' hfrontier
    (a.abreast hkept hord f) hstart.acquire traced traced' htrace htrace'
  have hahead := hend.pool.acquire.release
  rw [← hlast, ← hlast'] at hahead
  exact hahead.stock.trans (Int.max_self _)

include a first again in
/-- A cluster that the second mark expands has been expanded by the first. -/
theorem expanded_before (hb : b.Sound) {h : Handle}
    (hm : .expand h ∈ (markDeeds d.schema (d.markPlan keep) d.table d.clusters d.pool).flatten) :
    .expand h ∈ (markDeeds b.schema (b.markPlan keep) b.table b.clusters b.pool).flatten := by
  have hafter := (mark_once (d.markPlan_least keep) a.idle.sound.settled again.marked h).2
  have hcond : d.table.isPermanent h = false ∧ r'.clusters.contains h = true ∧
      r'.table.isUnreachable h = false := by
    by_contra hno
    rw [if_neg hno] at hafter
    exact List.count_eq_zero.mp hafter hm
  obtain ⟨hp, hroot, -⟩ := hcond
  obtain ⟨considered, hseed⟩ := again.seeded
  rw [(mark_traced again.marked hseed (a.none_dissolved again)).1, a.kept] at hroot
  obtain ⟨c, hget⟩ := Option.isSome_iff_exists.mp hroot
  obtain ⟨hc, rfl⟩ := Clusters.mem_of_get? hget
  -- the cluster has been left by the first mark, with a root that is not flagged
  obtain ⟨e, he, hec⟩ := a.scattered.clusters c hc
  have ho := a.rounded.tracing.orderly
  obtain ⟨o, hroot, hflag, -⟩ := ho.enrolled.root e he
  have hleft := a.scattered.roots.mem_iff.mp (List.mem_map_of_mem hc)
  rw [List.mem_filter, decide_eq_true_eq, hec.root] at hleft
  have hsame := a.scattered.get?_root ho he hleft.2
  rw [← hec.root] at hroot hsame
  have hcount := (mark_once (b.markPlan_least keep) hb.settled first.marked c.root).2
  rw [if_pos] at hcount
  · exact List.count_pos_iff.mp (by omega)
  · refine ⟨(a.isPermanent_before c.root).trans hp, ?_, ?_⟩
    · exact (ho.enrolled.contains_eq c.root).trans ((Table.has_of_get? hroot _).trans hflag)
    · have hawake := (a.judged.roots c hc).isUnreachable
      unfold Table.isUnreachable Table.has at hawake ⊢
      rwa [hsame] at hawake

include a first again hpool hserial hserial' in
/-- Where members do not keep their clusters, the second mark has no more lists out than the first. -/
theorem stock_apart (hb : b.Sound) (hnot : b.settings.memberKeepsCluster = false) :
    r'.pool.stock = r.pool.stock := by
  obtain ⟨considered, hseed⟩ := first.seeded
  obtain ⟨considered', hseed'⟩ := again.seeded
  have hnot' : d.settings.memberKeepsCluster = false := by rw [a.settings, hnot]
  obtain ⟨n, hfirst, hheight⟩ := mark_stretched hnot hserial first.marked hseed
  obtain ⟨-, traced, htrace, hlast, hdeeds⟩ :=
    mark_traced again.marked hseed' (a.none_dissolved again)
  obtain ⟨q, hq, htraced⟩ := Tracer.trace_stretched (by exact hnot') hserial' htrace
  have hagain := htraced.exchanged.around
  rw [← hq, ← hlast] at hagain
  have hless : Tracer.height seeds _ ≤ Tracer.height seeds _ :=
    Tracer.height_le fun h hh => a.expanded_before first again hb (List.mem_flatten.mpr ⟨_, hdeeds, hh⟩)
  have hstart : d.pool.inUse = r.pool.inUse ∧ d.pool.stock = r.pool.stock := by
    rw [hpool]
    exact ⟨rfl, rfl⟩
  obtain ⟨hout, hstock⟩ := hfirst
  obtain ⟨-, hstock'⟩ := hagain
  omega

end Collected

theorem finishPurge_markPlan {n : Nat} (hok : c.finishPurge = .ok (n, d)) (keep : Flags) :
    d.markPlan keep = c.markPlan keep := by
  obtain ⟨progress, hrun, -⟩ := finishPurge_ok hok
  obtain ⟨p, -, rfl⟩ := runPurge_ok hrun
  rfl

theorem condemn_markPlan (hok : c.condemn keep = .ok (stats, d)) (keep' : Flags) :
    d.markPlan keep' = c.markPlan keep' := by
  obtain ⟨-, r, -, unhashed, t, cs, -, t', cleared, -, rfl, -⟩ := condemn_ok hok
  rfl

/-- The last phase of a collection leaves the scratch lists and the plan of a mark alone. -/
theorem last_phase_keeps {full : Bool} {freed : Nat}
    (hend : (if full then m.finishPurge else pure (0, m)) = .ok (freed, d)) :
    d.pool = m.pool ∧ ∀ keep, d.markPlan keep = m.markPlan keep := by
  cases full with
  | true => exact ⟨finishPurge_pool hend, finishPurge_markPlan hend⟩
  | false =>
    cases hend
    exact ⟨rfl, fun _ => rfl⟩

/-- Between the search of one collection and that of the next nothing but a purge takes place. -/
theorem Idle.between (hb : b.Idle) (hcondemn : b.condemn keep = .ok (stats, m)) {full : Bool}
    {freed n : Nat} {last : Option Statistics}
    (hend : (if full then m.finishPurge else pure (0, m)) = .ok (freed, c))
    (hfinish : ({ c with misses := 0, last := last } : Collector).finishPurge = .ok (n, d)) :
    m.Purged d ∧ d.Idle ∧ d.pool = m.pool ∧ ∀ keep, d.markPlan keep = m.markPlan keep := by
  have hm := hb.sound.condemned hcondemn
  have hstanding := (hb.requested hcondemn).standing
  have hc := last_phase hm.1 hend
  have hc' : ({ c with last := last } : Collector).Sound := ⟨hc.sound.settled, hc.sound.purge⟩
  have hs : ({ c with last := last } : Collector).Standing := by
    change c.Standing
    cases full with
    | true => exact (hstanding.finishPurge hend).1
    | false =>
      cases hend
      exact hstanding
  obtain ⟨hd, hidle⟩ := hs.first_phase hc' hfinish
  obtain ⟨hpool, hplan⟩ := last_phase_keeps hend
  exact ⟨⟨hc.spares.trans hd.spares, hd.schema.trans hc.schema, hd.clusters.trans hc.clusters,
    hd.settings.trans hc.settings, hd.sound⟩, hidle, (finishPurge_pool hfinish).trans hpool,
    fun keep => (finishPurge_markPlan hfinish keep).trans (hplan keep)⟩

end Collector

/-- A collection that follows another one makes no new scratch list. Where members keep their clusters,
the collectors that the classes bring along are to list the same slots in the same order. -/
theorem Reached.allocated_again {c d e : Collector} (hr : Reached c) {keep : Flags} {full full' : Bool}
    {stats stats' : Statistics} (hserial : (c.markPlan keep).waves.workers = none)
    (hord : c.settings.memberKeepsCluster = true → c.schema.Ordered)
    (first : c.collect keep full = .ok (stats, d)) (again : d.collect keep full' = .ok (stats', e)) :
    e.pool.allocated = d.pool.allocated := by
  obtain ⟨n, b, hfinish, found, m, hcondemn, freed, d₀, hend, -, rfl⟩ := Collector.collect_ok first
  obtain ⟨n', d, hfinish', found', m', hcondemn', freed', e, hend', -, rfl⟩ :=
    Collector.collect_ok again
  obtain ⟨hpurged, hb⟩ := hr.standing.first_phase hr.sound hfinish
  obtain ⟨hbetween, hd, hpool, hplan⟩ := hb.between hcondemn hend hfinish'
  obtain ⟨seeds, t₀, r, roots, u, cleared, first, hm, hsearch⟩ :=
    Collector.marks_of_condemn hb.sound hcondemn
  obtain ⟨seeds', s₀, r', _, _, _, again, hm', hsearch'⟩ :=
    Collector.marks_of_condemn hd.sound hcondemn'
  have hpaired := hr.paired.spares hpurged.spares
  have a := hsearch.collected first.rounds hb hpaired hcondemn hbetween hd
  have hpaired' := (Collector.paired_of_condemn hb.sound hpaired hcondemn).spares hbetween.spares
  have hsame : seeds' = seeds := by
    obtain ⟨considered, hseed⟩ := first.seeded
    obtain ⟨considered', hseed'⟩ := again.seeded
    exact seeds_eq (seed_ascending hd.sound.settled.orderly.tidy hseed')
      (seed_ascending hb.sound.settled.orderly.tidy hseed)
      (a.mem_seeds_again hpaired' hsearch'.toPlanted)
  subst hsame
  have hout : b.pool.inUse = 0 := by
    rw [Collector.finishPurge_pool hfinish]
    exact hr.balanced
  have hserial₁ : (b.markPlan keep).waves.workers = none := by
    rw [Collector.finishPurge_markPlan hfinish]
    exact hserial
  have hserial₂ : (d.markPlan keep).waves.workers = none := by
    rw [hplan, Collector.condemn_markPlan hcondemn, hserial₁]
  rw [hm] at hpool
  have hstock : r'.pool.stock = r.pool.stock := by
    cases hkeep : b.settings.memberKeepsCluster with
    | false => exact a.stock_apart first again hpool hserial₁ hserial₂ hb.sound hkeep
    | true =>
      refine a.stock_abreast first again hpool hout hserial₁ hserial₂ hkeep ?_ fun c hc hp h hh ha => ?_
      · rw [hpurged.schema]
        exact hord (hpurged.settings ▸ hkeep)
      · exact ((hb.sound.condemned hcondemn).2.2.2.company (.inl hkeep) c hc hp h hh ha).2
  have hmade := mark_stock again.marked
  rw [hpool, hstock] at hmade
  change e.pool.allocated = d₀.pool.allocated
  rw [(Collector.last_phase_keeps hend').1, (Collector.last_phase_keeps hend).1, hm, hm']
  omega

def Operation.drops : Operation → Bool
  | .shutdown => true
  | _ => false

/-- The collectors that a program can come to as long as no scratch list is dropped. -/
inductive Stocked : Collector → Prop where
  | start (settings : Settings) (processors : Nat) : Stocked (.start settings processors)
  | step {c d : Collector} {op : Operation} {reply : Reply} : Stocked c → op.drops = false →
      op.Allowed c → c.perform op = .ok (reply, d) → Stocked d

theorem Stocked.reached {c : Collector} (h : Stocked c) : Reached c := by
  induction h with
  | start settings processors => exact .start settings processors
  | step _ _ ha hok ih => exact ih.step ha hok

namespace Collector

variable {c d : Collector} {keep : Flags} {stats : Statistics} {op : Operation} {reply : Reply}

theorem collect_stock {full : Bool} (hok : c.collect keep full = .ok (stats, d)) :
    d.pool.stock - d.pool.allocated = c.pool.stock - c.pool.allocated := by
  obtain ⟨n, b, hfinish, found, m, hcondemn, freed, e, hend, -, rfl⟩ := collect_ok hok
  obtain ⟨-, r, hmark, unhashed, t, cs, -, t', cleared, -, rfl, -⟩ := condemn_ok hcondemn
  have hlast : e.pool = r.pool := (last_phase_keeps hend).1
  have hmade := mark_stock hmark
  rw [finishPurge_pool hfinish, ← hlast] at hmade
  exact hmade

theorem perform_stock (hc : c.Sound) (ha : op.Allowed c) (hkept : op.drops = false)
    (hok : c.perform op = .ok (reply, d)) :
    d.pool.stock - d.pool.allocated = c.pool.stock - c.pool.allocated := by
  cases hop : op.collects with
  | false => rw [(perform_respects hc ha hop hok).pool]
  | true =>
    obtain ⟨lock, misses, hcases⟩ := perform_collects hop hok
    rcases hcases with rfl | ⟨keep, full, stats, hd⟩ | ⟨deadline, progress, hd⟩ | ⟨hshut, -⟩
    · rfl
    · have hkept := collect_stock hd
      exact hkept
    · rw [runPurge_pool hd]
      rfl
    · subst hshut
      cases hkept

end Collector

/-- Until lists are dropped, all that were made are there. -/
theorem Stocked.stock_eq {c : Collector} (h : Stocked c) : c.pool.stock = c.pool.allocated := by
  induction h with
  | start settings processors => rfl
  | step hc hkept ha hok ih =>
    have := Collector.perform_stock hc.reached.sound ha hkept hok
    omega

/-- As long as every class registered lists in one order, the classes that there are do. -/
theorem Stocked.performAll {c d : Collector} {ops : List Operation} (hc : Stocked c)
    (hord : c.schema.Ordered) (hops : ∀ op ∈ ops, op.drops = false ∧ (∀ b, op.Allowed b) ∧
      ∀ spec, op = .registerClass spec → spec.Ordered)
    (hd : c.performAll ops = .ok d) : Stocked d ∧ d.schema.Ordered := by
  induction ops generalizing c with
  | nil =>
    cases hd
    exact ⟨hc, hord⟩
  | cons op rest ih =>
    obtain ⟨reply, b, hb, hd⟩ := Collector.performAll_cons hd
    obtain ⟨hkept, ha, hspec⟩ := hops op (List.mem_cons_self ..)
    refine ih (hc.step hkept (ha c) hb) ?_ (fun o ho => hops o (List.mem_cons_of_mem _ ho)) hd
    rcases Collector.perform_classes hc.reached.sound (ha c) hb with hsame | ⟨spec, id, he, hreg⟩
    · rw [hsame]
      exact hord
    · exact hord.register (hspec spec he) hreg

/-- A run with one class that lists in one order. -/
theorem Stocked.of_runs {settings : Settings} {spec : ClassSpec} {ops : List Operation}
    {test : Collector → Bool} (hspec : spec.Honest) (hord : spec.Ordered)
    (hops : ops.all (fun op => op.asksNothing && !op.drops) = true)
    (hrun : Collector.runs settings spec ops test = true) :
    ∃ c, Stocked c ∧ c.schema.Ordered ∧ test c = true := by
  have hall : ∀ op ∈ Operation.registerClass spec :: ops, op.drops = false ∧
      (∀ b, op.Allowed b) ∧ ∀ spec, op = .registerClass spec → spec.Ordered := by
    intro op hm
    rcases List.mem_cons.mp hm with rfl | hm
    · refine ⟨rfl, fun _ => hspec, fun spec' he => ?_⟩
      cases he
      exact hord
    · have hop := List.all_eq_true.mp hops op hm
      rw [Bool.and_eq_true, Bool.not_eq_true'] at hop
      refine ⟨hop.2, Operation.allowed_of_asksNothing hop.1, fun spec' he => ?_⟩
      rw [he] at hop
      cases hop.1
  obtain ⟨c, hc, htest⟩ := Collector.performAll_of_runs hrun
  have hempty : (Collector.start settings 1).schema.Ordered := fun id e he => by
    simp [Collector.start, Schema.get?, Schema.empty] at he
  obtain ⟨hstocked, hordered⟩ := (Stocked.start settings 1).performAll hempty hall hc
  exact ⟨c, hstocked, hordered, htest⟩

/-- Scratch lists balance and warm up. Whatever a program has come to, a mark never ends with a leak. A mark
that comes back has made the moves that it is told to make: it has given back as many lists as it has
borrowed, none is out in the end, and at no time was one given back that was not out. The lists in the pool
and those that are out are all that were ever made, between the calls and at any time of a mark, unless the
program has shut down. And without workers, a collection that follows another one with the same keep flags
makes no new list; where members keep their clusters, the collectors that classes bring along are to list
the same slots in the same order, whatever the slots hold. A reached heap has honest classes, and its pool was never closed while the object in slot
4294967295 was in a cluster. -/
theorem Reached.scratch_lists_balance {c : Collector} (hr : Reached c) (keep : Flags) :
    (∀ n b, c.finishPurge = .ok (n, b) →
      mark b.schema (b.markPlan keep) b.table b.clusters b.pool ≠ .error .scratchLeak ∧
      ∀ r, mark b.schema (b.markPlan keep) b.table b.clusters b.pool = .ok r →
        r.pool = b.pool.after (markMoves b.schema (b.markPlan keep) b.table b.clusters b.pool) ∧
        (r.pool.acquired : Int) - r.pool.released = b.pool.acquired - b.pool.released ∧
        r.pool.inUse = 0 ∧
        ∀ v, v <+: markMoves b.schema (b.markPlan keep) b.table b.clusters b.pool →
          0 ≤ (b.pool.after v).inUse ∧
          (Stocked c → ((b.pool.after v).pooled : Int) + (b.pool.after v).inUse =
            (b.pool.after v).allocated)) ∧
    (Stocked c → (c.pool.pooled : Int) + c.pool.inUse = c.pool.allocated) ∧
    ((c.markPlan keep).waves.workers = none →
      (c.settings.memberKeepsCluster = true → c.schema.Ordered) →
      ∀ full full' stats stats' d e, c.collect keep full = .ok (stats, d) →
        d.collect keep full' = .ok (stats', e) → e.pool.allocated = d.pool.allocated) := by
  refine ⟨fun n b hfinish => ⟨fun hleak => ?_, fun r hok => ?_⟩, fun h => h.stock_eq,
    fun hserial hord full full' stats stats' d e first again =>
      hr.allocated_again hserial hord first again⟩
  · obtain ⟨hends, -⟩ := hr.marks_once hfinish (b.markPlan_least keep) (b.markPlan_workers keep)
    obtain ⟨op, hop⟩ := hends _ hleak
    cases hop
  · have hpool : b.pool = c.pool := Collector.finishPurge_pool hfinish
    have hout : b.pool.inUse = (0 : Nat) := by
      rw [hpool]
      exact hr.balanced
    have h := mark_lent hok
    have hbalance := ScratchPool.balance_after
      (markMoves b.schema (b.markPlan keep) b.table b.clusters b.pool) b.pool
    rw [h.replayed, Collector.mark_balanced hok, hout] at hbalance
    refine ⟨h.replayed.symm, by simpa using hbalance, Collector.mark_balanced hok, fun v hv => ⟨?_, fun hs => ?_⟩⟩
    · exact ScratchPool.inUse_nonneg hout (h.level 0) hv
    · have hstock := ScratchPool.stock_after v b.pool
      rw [hpool, hs.stock_eq] at hstock
      rw [hpool]
      change (c.pool.after v).stock = _
      omega

theorem Sample.node_ordered : Sample.node.Ordered := by
  refine ⟨⟨trivial, trivial, fun f hf => ?_, trivial⟩, fun f hf => ?_⟩
  · cases hf
    exact Cell.ordered_bagSlots
  · cases hf

open Collector Sample in
/-- A rooted object refers to a member of a cluster, and that cluster keeps alive what has become a member of
another one since. So the other one is expanded while the first one is, and four lists are out. The first
collection frees an object; the second one makes no list. -/
theorem scratch_lists_balance_nested : ∃ (c b d e : Collector) (n : Nat) (r : MarkResult)
    (stats stats' : Statistics), Stocked c ∧ c.schema.Ordered ∧
    c.settings.memberKeepsCluster = true ∧ (c.markPlan .empty).waves.workers = none ∧
    c.finishPurge = .ok (n, b) ∧
    mark b.schema (b.markPlan .empty) b.table b.clusters b.pool = .ok r ∧ r.pool.inUse = 0 ∧
    c.collect .empty true = .ok (stats, d) ∧ d.collect .empty true = .ok (stats', e) ∧
      stats.purged = 1 ∧ d.pool.allocated = 4 ∧ e.pool.allocated = 4 := by
  have hrun : runs { Settings.serial with memberKeepsCluster := true } node (nodes 6 ++
      [.addRoot one, .setReference one 0 (some two), .setReference two 0 (some four),
        .formCluster three [two], .formCluster five [four]]) (fun c =>
        c.settings.memberKeepsCluster && (c.markPlan .empty).waves.workers.isNone &&
          (c.finishPurge.toOption.any fun found =>
            (mark found.2.schema (found.2.markPlan .empty) found.2.table found.2.clusters
              found.2.pool).toOption.any fun _ => true) &&
          (c.collect .empty true).toOption.any fun found =>
            decide (found.1.purged = 1 ∧ found.2.pool.allocated = 4) &&
              (found.2.collect .empty true).toOption.any fun _ => true) = true := by
    decide +kernel
  obtain ⟨c, hc, hord, htest⟩ := Stocked.of_runs node_honest node_ordered (by decide) hrun
  simp only [Bool.and_eq_true, Option.isNone_iff_eq_none] at htest
  obtain ⟨⟨⟨hkeep, hserial⟩, hmark⟩, hcollect⟩ := htest
  obtain ⟨⟨n, b⟩, hfinish, hmark⟩ := except_of_toOption_any hmark
  obtain ⟨r, hok, -⟩ := except_of_toOption_any hmark
  obtain ⟨⟨stats, d⟩, first, hd⟩ := except_of_toOption_any hcollect
  obtain ⟨hcounts, hagain⟩ := Bool.and_eq_true_iff.mp hd
  obtain ⟨⟨stats', e⟩, again, -⟩ := except_of_toOption_any hagain
  obtain ⟨hpurged, hmade⟩ := of_decide_eq_true hcounts
  obtain ⟨hmarks, -, hwarm⟩ := hc.reached.scratch_lists_balance .empty
  obtain ⟨-, -, hout, -⟩ := (hmarks n b hfinish).2 r hok
  have hsame := hwarm hserial (fun _ => hord) true true stats stats' d e first again
  exact ⟨c, b, d, e, n, r, stats, stats', hc, hord, hkeep, hserial, hfinish, hok, hout, first, again,
    hpurged, hmade, hsame.trans hmade⟩

namespace Sample

/-- Lists the bags of an object, from last to first as long as the weak slot is filled. -/
def turned : ObjectCollector := fun o =>
  if o.slot? ⟨1, .here⟩ = some none then o.bagSlots else o.bagSlots.reverse

def turning : ClassSpec := { fickle fun _ => true with collector := some turned }

theorem steady_turned : turned.Steady := by
  have hmem : ∀ o found, found ∈ turned o ↔ found ∈ o.bagSlots := by
    intro o found
    unfold turned
    split
    · exact Iff.rfl
    · exact List.mem_reverse
  intro o o' a k g g' hsame hs hs' h
  rw [hmem] at h ⊢
  exact Object.steady_bagSlots o o' a k g g' hsame hs hs' h

theorem turning_honest : turning.Honest := by
  refine ⟨⟨trivial, trivial, ⟨blank_bag, fun _ hf => nomatch hf⟩, trivial⟩, fun f hf => ?_⟩
  cases hf
  exact steady_turned

/-- The bag of a root holds members of three clusters. Each cluster keeps alive what has become a member of
the next one. -/
def chained : List Operation :=
  nodes 8 ++ [.addRoot one, .setReference two 0 (some four), .setReference four 0 (some six),
    .formCluster three [two], .formCluster five [four], .formCluster seven [six],
    .setReference one 1 (some eight),
    .putCell one 2 (.container (.bag #[some two, some four, some six] #[]))]

end Sample

open Collector Sample in
/-- The first collection comes to the last cluster first and needs one list for each cluster at a time. It
nulls the weak slot of the root, so the second one comes to the first cluster first and expands the others
inside. -/
theorem repeated_yet_stretched : turning.Honest ∧ ∃ (c d e : Collector) (stats stats' : Statistics),
    (start { Settings.serial with memberKeepsCluster := true } 1).performAll
      (.registerClass turning :: chained) = .ok c ∧
    (c.markPlan .empty).waves.workers = none ∧ c.collect .empty true = .ok (stats, d) ∧
    d.collect .empty true = .ok (stats', e) ∧ d.pool.allocated = 3 ∧ e.pool.allocated = 5 := by
  have hrun : runs { Settings.serial with memberKeepsCluster := true } turning chained (fun c =>
      (c.markPlan .empty).waves.workers.isNone &&
        (c.collect .empty true).toOption.any fun first => decide (first.2.pool.allocated = 3) &&
          (first.2.collect .empty true).toOption.any fun again =>
            decide (again.2.pool.allocated = 5)) = true := by
    decide +kernel
  obtain ⟨c, hc, htest⟩ := performAll_of_runs hrun
  obtain ⟨hserial, hcollect⟩ := Bool.and_eq_true_iff.mp htest
  obtain ⟨⟨stats, d⟩, first, hd⟩ := except_of_toOption_any hcollect
  obtain ⟨hbefore, hagain⟩ := Bool.and_eq_true_iff.mp hd
  obtain ⟨⟨stats', e⟩, again, hafter⟩ := except_of_toOption_any hagain
  exact ⟨turning_honest, c, d, e, stats, stats', hc, Option.isNone_iff_eq_none.mp hserial, first, again,
    of_decide_eq_true hbefore, of_decide_eq_true hafter⟩

end TracingHeap
