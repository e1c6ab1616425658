import TracingHeap.Proofs.Program.History
import Mathlib.Logic.Relation

namespace TracingHeap

namespace Flags

theorem intersects_clear (a m : Flags) (f : Flag) :
    (a.clear f).intersects m = a.intersects (m.clear f) := by
  unfold intersects clear remove
  rw [BitVec.and_assoc, BitVec.and_comm (~~~_)]

theorem union_keep_clear (keep : Flags) :
    (keep.clear .reachableInCluster).union Flags.keep =
      (keep.union Flags.keep).clear .reachableInCluster := by
  have hkeep : Flags.keep.bits &&& ~~~(single .reachableInCluster).bits = Flags.keep.bits := by
    decide
  have hbits : (keep.bits &&& ~~~(single .reachableInCluster).bits) ||| Flags.keep.bits =
      (keep.bits ||| Flags.keep.bits) &&& ~~~(single .reachableInCluster).bits := by
    rw [BitVec.and_or_distrib_right, hkeep]
  exact congrArg Flags.mk hbits

end Flags

/-- The object counts as a root: it is one, or it has one of the flags and is not killed. -/
def Object.Counts (keep : Flags) (o : Object) : Prop :=
  o.has .rootSet = true ∨
    o.flags.intersects (keep.union Flags.keep) = true ∧ o.has .pendingKill = false

/-- A mark takes the object for a seed. It has forgotten what was reached in clusters before. -/
theorem Object.isSeed_iff {keep : Flags} {o : Object} :
    o.isSeed (keep.union Flags.keep) = true ↔ o.Counts (keep.clear .reachableInCluster) := by
  have hflags : (o.clear .reachableInCluster).flags.intersects (keep.union Flags.keep) =
      o.flags.intersects ((keep.clear .reachableInCluster).union Flags.keep) := by
    rw [Flags.union_keep_clear]
    exact Flags.intersects_clear o.flags _ _
  have hkill : (o.clear .reachableInCluster).flags.has .pendingKill = o.has .pendingKill := by
    simp [Object.clear, Object.has]
  simp only [isSeed, isKept, Counts, hflags, hkill, Bool.or_eq_true, Bool.and_eq_true,
    Bool.not_eq_true']

namespace Table

def Collectable (t : Table) (h : Handle) : Prop :=
  (∃ o, t.get? h = some o) ∧ t.isPermanent h = false

def Seed (t : Table) (keep : Flags) (h : Handle) : Prop :=
  t.isPermanent h = false ∧ ∃ o, t.get? h = some o ∧ o.Counts keep

instance (t : Table) (h : Handle) : Decidable (t.Collectable h) :=
  decidable_of_iff ((t.get? h).isSome = true ∧ t.isPermanent h = false) (by
    rw [Option.isSome_iff_exists, Collectable])

instance (o : Object) (keep : Flags) : Decidable (o.Counts keep) :=
  inferInstanceAs (Decidable (_ ∨ _))

instance (t : Table) (keep : Flags) (h : Handle) : Decidable (t.Seed keep h) :=
  decidable_of_iff (t.isPermanent h = false ∧ (t.get? h).any (fun o => o.Counts keep) = true) (by
    cases ho : t.get? h <;> simp [Seed, ho])

end Table

/-- One collectable object strongly refers to another that is not killed. -/
structure Follows (s : Schema) (t : Table) (h g : Handle) : Prop where
  source : t.Collectable h
  edge : Edge s t h .strong g
  target : t.Collectable g
  alive : t.has g .pendingKill = false

def Collector.follows (c : Collector) (h g : Handle) : Bool :=
  c.refers h .strong g && decide (c.table.Collectable h ∧ c.table.Collectable g ∧
    c.table.has g .pendingKill = false)

theorem Collector.follows_spec {c : Collector} {h g : Handle} (hf : c.follows h g = true) :
    Follows c.schema c.table h g := by
  obtain ⟨hrefers, hrest⟩ := Bool.and_eq_true_iff.mp hf
  obtain ⟨hh, hg, hk⟩ := of_decide_eq_true hrest
  exact ⟨hh, edge_of_refers hrefers, hg, hk⟩

/-- How an object keeps another: by a strong reference if it is in no cluster, by being in one cluster
with it, or as the root of a cluster by what the cluster knows of. -/
inductive Arc (s : Schema) (t : Table) (cs : Clusters) : Handle → Handle → Prop where
  | reference {h g : Handle} : t.rootOf h = none → Edge s t h .strong g →
      t.has g .pendingKill = false → Arc s t cs h g
  | company {c : Cluster} {h g : Handle} : c ∈ cs.list → h ∈ c.objects → g ∈ c.objects →
      Arc s t cs h g
  | mutable {c : Cluster} {m : Handle} : c ∈ cs.list → m ∈ c.mutables → Arc s t cs c.root m
  | referenced {c : Cluster} {r : Handle} : c ∈ cs.list → r ∈ c.referenced → Arc s t cs c.root r

structure Holds (s : Schema) (t : Table) (cs : Clusters) (h g : Handle) : Prop where
  source : t.Collectable h
  arc : Arc s t cs h g
  target : t.Collectable g

namespace Collector

section

variable {c b m : Collector} {keep : Flags} {good : Handle → Prop} {g h r : Handle}
  (hb : c.Purged b)
  (hd : Condemns c.schema c.settings.memberKeepsCluster keep good b.table c.clusters m.table
    m.clusters)
include hb hd

/-- What is not flagged at the end was there at the start, and is as it was while marking. -/
theorem awake_before (ha : m.table.Awake h) (hp : c.table.isPermanent h = false) :
    c.table.Awake h := by
  obtain ⟨o, ho⟩ := hd.live h ha
  exact hb.spares.awake_back ⟨o, ho, hd.fresh h o ho ((hb.spares.isPermanent h).trans hp)⟩

theorem seed_survives (hs : c.table.Seed (keep.clear .reachableInCluster) r)
    (ha : c.table.Awake r) : m.table.Awake r := by
  obtain ⟨hp, o, ho, hcounts⟩ := hs
  exact hd.seeds r o ((hb.spares.get?_eq ha).trans ho) ((hb.spares.isPermanent r).trans hp)
    (Object.isSeed_iff.mpr hcounts)

theorem target_survives (hc : c.Sound) (ha : m.table.Awake h) (hp : c.table.isPermanent h = false)
    (he : Edge c.schema c.table h .strong g) (hk : c.table.has g .pendingKill = false) :
    m.table.Awake g := by
  have hbefore := awake_before hb hd ha hp
  have hg := hc.settled.linked h .strong g he hbefore (.inr hp)
  apply hd.strong h g ha ((hb.spares.isPermanent h).trans hp)
  · obtain ⟨o, a, ho, hrep, hslot⟩ := he
    exact ⟨o, a, (hb.spares.get?_eq hbefore).trans ho, hrep, hslot⟩
  · rw [Table.has, hb.spares.get?_eq hg]
    exact hk

/-- Where clusters are kept whole, what is kept keeps along every arc. -/
theorem arc_survives (hc : c.Sound)
    (hkeeping : c.settings.memberKeepsCluster = true ∨ c.clusters.list = [])
    (ha : m.table.Awake h) (hp : c.table.isPermanent h = false)
    (harc : Arc c.schema c.table c.clusters h g) : m.table.Awake g := by
  have hen := hc.settled.orderly.enrolled
  have hperm : ∀ h, m.table.isPermanent h = c.table.isPermanent h :=
    fun h => (hd.isPermanent h).trans (hb.spares.isPermanent h)
  have hwhole : ∀ e ∈ c.clusters.list, h ∈ e.objects →
      e ∈ m.clusters.list ∧ c.table.isPermanent e.root = false := by
    intro e he hh
    have hpe := (hen.permanent_objects he hh).symm.trans hp
    exact ⟨(hd.company hkeeping e he ((hb.spares.isPermanent e.root).trans hpe) h hh ha).2, hpe⟩
  cases harc with
  | reference _ he hk => exact target_survives hb hd hc ha hp he hk
  | company he hh hg => exact hd.settled.awake_objects (hwhole _ he hh).1 hg
  | mutable he hm =>
    obtain ⟨hin, hpe⟩ := hwhole _ he (Cluster.mem_objects.mpr (.inl rfl))
    exact hd.settled.mutables _ hin ((hperm _).trans hpe) _ hm
  | referenced he hr =>
    obtain ⟨hin, hpe⟩ := hwhole _ he (Cluster.mem_objects.mpr (.inl rfl))
    obtain ⟨e', he', hroot⟩ :=
      (hd.settled.orderly.tracked _ hin ((hperm _).trans hpe)).referenced _ hr
    exact hroot ▸ hd.settled.roots e' he'

end

/-- Purges leave alone what is not flagged. -/
theorem purges_spare {c d : Collector} (hc : c.Sound) {limits : List (Option Deadline)}
    (hd : c.performAll (limits.map .purge) = .ok d) : c.table.Spares d.table := by
  induction limits generalizing c with
  | nil =>
    cases hd
    exact .refl hc.settled.orderly.tidy
  | cons limit rest ih =>
    rw [List.map_cons, performAll, List.foldlM_cons] at hd
    obtain ⟨b, hb, hd⟩ := except_bind_ok hd
    cases hx : c.runPurge limit with
    | error f =>
      rw [perform, hx] at hb
      cases hb
    | ok found =>
      rw [perform, hx] at hb
      cases hb
      have hpurged := (runPurge_spec hc limit).ok hx
      exact hpurged.spares.trans (ih hpurged.sound hd)

/-- What can be reached from a seed along strong references is not flagged when a collection is over,
and stays as it is whatever is purged afterwards. Objects that an earlier collection has condemned
count for nothing, and neither does the mark of having been reached in a cluster. -/
theorem reachable_survives {c d : Collector} {keep : Flags} {full : Bool} {stats : Statistics}
    (hr : Reached c) (hd : c.collect keep full = .ok (stats, d)) {r h : Handle}
    (hseed : c.table.Seed (keep.clear .reachableInCluster) r) (hawake : c.table.Awake r)
    (hpath : Relation.ReflTransGen (Follows c.schema c.table) r h) :
    d.table.Awake h ∧ ∀ (limits : List (Option Deadline)) (e : Collector),
      d.performAll (limits.map .purge) = .ok e → e.table.get? h = d.table.get? h := by
  have hc := hr.sound
  let good : Collector → Handle → Prop := fun _ _ => True
  have hcl : ∀ b, c.Purged b → Closed b.schema b.table b.clusters (good b) := fun _ _ => .all
  obtain ⟨b, m, hb, hcondemns, -, hm⟩ :=
    (collect_spec hc full hcl fun _ _ _ _ _ _ _ _ => trivial).ok hd
  have hsurvives : m.table.Awake h := by
    induction hpath with
    | refl => exact seed_survives hb hcondemns hseed hawake
    | tail _ hf ih => exact target_survives hb hcondemns hc ih hf.source.2 hf.edge hf.alive
  have hh := hm.spares.awake hsurvives
  refine ⟨hh, fun limits e he => ?_⟩
  exact (purges_spare hm.sound he).get?_eq hh

/-- A rooted object refers to a member of a cluster, and the member to an object outside. Nothing
keeps the root of the cluster. -/
def bridge : List Operation :=
  Sample.nodes 4 ++ [.formCluster Sample.one [Sample.two], .addRoot Sample.three,
    .setReference Sample.three 0 (some Sample.two), .setReference Sample.two 0 (some Sample.four)]

theorem reachable_survives_bridge : ∃ (c d : Collector) (stats : Statistics),
    Reached c ∧ c.collect .empty true = .ok (stats, d) ∧ d.table.get? Sample.one = none ∧
      d.clusters.list = [] ∧ d.table.Awake Sample.four := by
  have hrun : runs .serial Sample.node bridge (fun c =>
      decide (c.table.Seed (Flags.empty.clear .reachableInCluster) Sample.three) &&
      decide (c.table.Awake Sample.three) && c.follows Sample.three Sample.two &&
      c.follows Sample.two Sample.four && c.leaves .empty true fun d =>
        (d.table.get? Sample.one).isNone && decide (d.clusters.list = [])) = true := by
    decide +kernel
  obtain ⟨c, hr, hc⟩ := Reached.of_runs Sample.node_honest (by decide) hrun
  simp only [Bool.and_eq_true, decide_eq_true_eq] at hc
  obtain ⟨⟨⟨⟨hseed, hawake⟩, hfirst⟩, hsecond⟩, hleaves⟩ := hc
  obtain ⟨stats, d, hd, htest⟩ := collect_of_leaves hleaves
  simp only [Bool.and_eq_true, decide_eq_true_eq, Option.isNone_iff_eq_none] at htest
  have hpath : Relation.ReflTransGen (Follows c.schema c.table) Sample.three Sample.four :=
    .tail (.single (follows_spec hfirst)) (follows_spec hsecond)
  exact ⟨c, d, stats, hr, hd, htest.1, htest.2,
    (reachable_survives hr hd hseed hawake hpath).1⟩

/-- An object with a keep flag is condemned by a collection that does not keep it, while it refers to
an object that a root lets go of afterwards. -/
def belated : List Operation :=
  Sample.nodes 3 ++ [.addRoot Sample.three, .setReference Sample.three 0 (some Sample.two),
    .setReference Sample.one 0 (some Sample.two), .setFlags Sample.one (.single .standalone),
    .collect .empty false, .setReference Sample.three 0 none]

/-- A member of a cluster carries the mark of having been reached by an earlier collection, and
nothing keeps the cluster any more. -/
def outdated : List Operation :=
  Sample.nodes 3 ++ [.formCluster Sample.one [Sample.two], .addRoot Sample.one,
    .addRoot Sample.three, .setReference Sample.three 0 (some Sample.two),
    .collect .empty false, .removeRoot Sample.one, .setReference Sample.three 0 none]

/-- An object that was condemned before keeps nothing, whatever flags it carries; and the mark of having
been reached in a cluster is no keep flag. -/
theorem seed_keeps_nothing :
    (∃ (c d : Collector) (stats : Statistics), Reached c ∧
      c.collect (.single .standalone) false = .ok (stats, d) ∧
      c.table.Seed (.single .standalone) Sample.one ∧
      Relation.ReflTransGen (Follows c.schema c.table) Sample.one Sample.two ∧
      d.table.isUnreachable Sample.two = true) ∧
    ∃ (c d : Collector) (stats : Statistics), Reached c ∧
      c.collect (.single .reachableInCluster) false = .ok (stats, d) ∧
      c.table.Seed (.single .reachableInCluster) Sample.two ∧ c.table.Awake Sample.two ∧
      d.table.isUnreachable Sample.two = true := by
  constructor
  · have hrun : runs .serial Sample.node belated (fun c =>
        decide (c.table.Seed (.single .standalone) Sample.one) &&
        c.follows Sample.one Sample.two && c.leaves (.single .standalone) false fun d =>
          d.table.isUnreachable Sample.two) = true := by
      decide +kernel
    obtain ⟨c, hr, hc⟩ := Reached.of_runs Sample.node_honest (by decide) hrun
    simp only [Bool.and_eq_true, decide_eq_true_eq] at hc
    obtain ⟨⟨hseed, hfollows⟩, hleaves⟩ := hc
    obtain ⟨stats, d, hd, hu⟩ := collect_of_leaves hleaves
    exact ⟨c, d, stats, hr, hd, hseed, .single (follows_spec hfollows), hu⟩
  · have hrun : runs .serial Sample.node outdated (fun c =>
        decide (c.table.Seed (.single .reachableInCluster) Sample.two) &&
        decide (c.table.Awake Sample.two) && c.leaves (.single .reachableInCluster) false fun d =>
          d.table.isUnreachable Sample.two) = true := by
      decide +kernel
    obtain ⟨c, hr, hc⟩ := Reached.of_runs Sample.node_honest (by decide) hrun
    simp only [Bool.and_eq_true, decide_eq_true_eq] at hc
    obtain ⟨⟨hseed, hawake⟩, hleaves⟩ := hc
    obtain ⟨stats, d, hd, hu⟩ := collect_of_leaves hleaves
    exact ⟨c, d, stats, hr, hd, hseed, hawake, hu⟩

/-- What is reached from the seeds when clusters are kept whole. -/
def Retained (c : Collector) (keep : Flags) (h : Handle) : Prop :=
  ∃ r, c.table.Seed (keep.clear .reachableInCluster) r ∧ c.table.Awake r ∧
    Relation.ReflTransGen (Holds c.schema c.table c.clusters) r h

theorem Retained.arc {c : Collector} {keep : Flags} {h g : Handle} (hr : c.Retained keep h)
    (hh : c.table.Collectable h) (ha : Arc c.schema c.table c.clusters h g)
    (hg : c.table.Collectable g) : c.Retained keep g := by
  obtain ⟨r, hseed, hawake, hpath⟩ := hr
  exact ⟨r, hseed, hawake, hpath.tail ⟨hh, ha, hg⟩⟩

section

variable {c b : Collector} {keep : Flags}

/-- An object that a cluster knows of is retained with the cluster. -/
theorem retained_of_notes (hc : c.Sound) {e : Cluster} (he : e ∈ c.clusters.list)
    (hp : c.table.isPermanent e.root = false) (hr : c.Retained keep e.root) {g : Handle}
    (hg : c.table.Collectable g) (hn : e.Notes c.table g) : c.Retained keep g := by
  have hord := hc.settled.orderly
  have hroot : c.table.Collectable e.root :=
    ⟨hord.enrolled.live_objects he (Cluster.mem_objects.mpr (.inl rfl)), hp⟩
  rcases hn with hm | ⟨r, hrefd, hgr⟩
  · exact hr.arc hroot (.mutable he hm) hg
  · obtain ⟨d, hd, hdr, hgd⟩ := hord.enrolled.cluster_of_rootOf hgr
    have hother : c.table.Collectable r := by
      rw [← hdr]
      refine ⟨hord.enrolled.live_objects hd (Cluster.mem_objects.mpr (.inl rfl)), ?_⟩
      rw [← hord.enrolled.permanent_objects hd hgd]
      exact hg.2
    have hheld := hr.arc hroot (.referenced he hrefd) hother
    exact hheld.arc hother (.company hd (hdr ▸ Cluster.mem_objects.mpr (.inl rfl)) hgd) hg

/-- What is retained is closed under the ways in which the mark finds objects. -/
theorem retained_closed (hc : c.Sound) (hb : c.Purged b) (keep : Flags) :
    Closed b.schema b.table b.clusters fun h => c.table.Awake h ∧ c.Retained keep h := by
  have hs := hc.settled
  have hord := hs.orderly
  have hen := hord.enrolled
  rw [hb.schema, hb.clusters]
  have hperm := hb.spares.isPermanent
  have hcollectable : ∀ {g}, c.table.Awake g → c.table.isPermanent g = false →
      c.table.Collectable g := by
    intro g ha hp
    obtain ⟨o, ho, -⟩ := ha
    exact ⟨⟨o, ho⟩, hp⟩
  refine ⟨?_, ?_, ?_, ?_⟩
  · intro h g hgood hp he hpg hk
    obtain ⟨ha, hr⟩ := hgood
    rw [hperm] at hp hpg
    have he' := hb.spares.edge_back hord.regular hord.fits he
    have hg := hs.linked h .strong g he' ha (.inr hp)
    refine ⟨hg, ?_⟩
    have hcg := hcollectable hg hpg
    cases hroot : c.table.rootOf h with
    | none =>
      rw [hb.spares.rootOf_eq ha, hroot] at hk
      have hkill := hk.resolve_right fun hne => hne rfl
      rw [Table.has, hb.spares.get?_eq hg] at hkill
      exact hr.arc (hcollectable ha hp) (.reference hroot he' hkill) hcg
    | some r =>
      obtain ⟨e, hm, her, hin⟩ := hen.cluster_of_rootOf hroot
      have hre := Cluster.mem_objects.mpr (.inl rfl : e.root = e.root ∨ e.root ∈ e.members)
      by_cases hge : g ∈ e.objects
      · exact hr.arc (hcollectable ha hp) (.company hm hin hge) hcg
      · have hpe := (hen.permanent_objects hm hin).symm.trans hp
        have hroots := hr.arc (hcollectable ha hp) (.company hm hin hre)
          (hcollectable (hs.roots e hm) hpe)
        apply retained_of_notes hc hm hpe hroots hcg
        exact (hord.tracked e hm hpe).covered h hin g he' hpg hge
  · intro e hm hp h hh hgood g hg
    obtain ⟨ha, hr⟩ := hgood
    rw [hperm] at hp
    have hag := hs.awake_objects hm hg
    have hph := (hen.permanent_objects hm hh).trans hp
    have hpg := (hen.permanent_objects hm hg).trans hp
    exact ⟨hag, hr.arc (hcollectable ha hph) (.company hm hh hg) (hcollectable hag hpg)⟩
  · intro e hm hp hgood m hmm hpm
    obtain ⟨ha, hr⟩ := hgood
    rw [hperm] at hp hpm
    have ham := hs.mutables e hm hp m hmm
    exact ⟨ham, hr.arc (hcollectable ha hp) (.mutable hm hmm) (hcollectable ham hpm)⟩
  · intro e hm hp hgood r hrr hpr
    obtain ⟨ha, hr⟩ := hgood
    rw [hperm] at hp hpr
    obtain ⟨d, hd, hdr⟩ := (hord.tracked e hm hp).referenced r hrr
    have har := hdr ▸ hs.roots d hd
    exact ⟨har, hr.arc (hcollectable ha hp) (.referenced hm hrr) (hcollectable har hpr)⟩

end

/-- What is not flagged when a collection is over could be reached from the seeds, in a graph where
clusters are kept whole. If references to members keep clusters alive, or there are none, everything
that could be reached is not flagged. -/
theorem survivors_are_retained {c d : Collector} {keep : Flags} {full : Bool} {stats : Statistics}
    (hr : Reached c) (hd : c.collect keep full = .ok (stats, d)) :
    (∀ h, d.table.Awake h → d.table.isPermanent h = false → c.Retained keep h) ∧
      (c.settings.memberKeepsCluster = true ∨ c.clusters.list = [] → ∀ h,
        d.table.Awake h ∧ d.table.isPermanent h = false ↔ c.Retained keep h) := by
  have hc := hr.sound
  let good : Collector → Handle → Prop := fun _ h => c.table.Awake h ∧ c.Retained keep h
  have hcl : ∀ b, c.Purged b → Closed b.schema b.table b.clusters (good b) :=
    fun _ hb => retained_closed hc hb keep
  have hgood : ∀ b : Collector, c.Purged b → ∀ h o, b.table.get? h = some o →
      b.table.isPermanent h = false → o.isUnreachable = false →
      o.isSeed (keep.union Flags.keep) = true → good b h := by
    intro b hb h o ho hp hu hseed
    have ha := hb.spares.awake_back ⟨o, ho, hu⟩
    refine ⟨ha, h, ⟨(hb.spares.isPermanent h).symm.trans hp, o, ?_, Object.isSeed_iff.mp hseed⟩, ha,
      .refl⟩
    exact (hb.spares.get?_eq ha).symm.trans ho
  obtain ⟨b, m, hb, hcondemns, -, hm⟩ := (collect_spec hc full hcl hgood).ok hd
  have hperm : ∀ h, d.table.isPermanent h = c.table.isPermanent h := fun h =>
    (hm.spares.isPermanent h).trans ((hcondemns.isPermanent h).trans (hb.spares.isPermanent h))
  have hretained : ∀ h, d.table.Awake h → d.table.isPermanent h = false → c.Retained keep h := by
    intro h ha hp
    have hpb : b.table.isPermanent h = false :=
      (hb.spares.isPermanent h).trans ((hperm h).symm.trans hp)
    exact (hcondemns.within h (hm.spares.awake_back ha) hpb).2
  refine ⟨hretained, fun hkeeping h => ⟨fun ha => hretained h ha.1 ha.2, fun hret => ?_⟩⟩
  obtain ⟨r, hseed, hawake, hpath⟩ := hret
  have hsurvives : m.table.Awake h ∧ c.table.isPermanent h = false := by
    induction hpath with
    | refl => exact ⟨seed_survives hb hcondemns hseed hawake, hseed.1⟩
    | tail _ hf ih =>
      exact ⟨arc_survives hb hcondemns hc hkeeping ih.1 hf.source.2 hf.arc, hf.target.2⟩
  exact ⟨hm.spares.awake hsurvives.1, (hperm h).trans hsurvives.2⟩

/-- A reference to a member keeps the root of its cluster, if the settings say so. -/
theorem survivors_are_retained_bridge : ∃ (c d : Collector) (stats : Statistics), Reached c ∧
    c.settings.memberKeepsCluster = true ∧ c.collect .empty true = .ok (stats, d) ∧
      c.Retained .empty Sample.one := by
  have hrun : runs { Settings.serial with memberKeepsCluster := true } Sample.node bridge (fun c =>
      c.settings.memberKeepsCluster && c.leaves .empty true fun d =>
        decide (d.table.Awake Sample.one) && !d.table.isPermanent Sample.one) = true := by
    decide +kernel
  obtain ⟨c, hr, hc⟩ := Reached.of_runs Sample.node_honest (by decide) hrun
  obtain ⟨hkeeping, hleaves⟩ := Bool.and_eq_true_iff.mp hc
  obtain ⟨stats, d, hd, htest⟩ := collect_of_leaves hleaves
  simp only [Bool.and_eq_true, decide_eq_true_eq, Bool.not_eq_true'] at htest
  exact ⟨c, d, stats, hr, hkeeping, hd,
    ((survivors_are_retained hr hd).2 (.inl hkeeping) Sample.one).mp htest⟩

/-- What is reached from the objects with keep flags need not survive: without any cluster, when one of
them was condemned before; and where clusters are kept whole, when the flag is the mark of having been
reached in a cluster. -/
theorem reached_yet_flagged :
    (∃ (c d : Collector) (stats : Statistics), Reached c ∧ c.clusters.list = [] ∧
      c.collect (.single .standalone) false = .ok (stats, d) ∧
      c.table.Seed (.single .standalone) Sample.one ∧
      Relation.ReflTransGen (Holds c.schema c.table c.clusters) Sample.one Sample.two ∧
      ¬ d.table.Awake Sample.two) ∧
    ∃ (c d : Collector) (stats : Statistics), Reached c ∧ c.settings.memberKeepsCluster = true ∧
      c.collect (.single .reachableInCluster) false = .ok (stats, d) ∧
      c.table.Seed (.single .reachableInCluster) Sample.two ∧ c.table.Awake Sample.two ∧
      ¬ d.table.Awake Sample.two := by
  constructor
  · have hrun : runs .serial Sample.node belated (fun c => decide (c.clusters.list = []) &&
        decide (c.table.Seed (.single .standalone) Sample.one) &&
        decide (c.table.rootOf Sample.one = none) &&
        c.follows Sample.one Sample.two && c.leaves (.single .standalone) false fun d =>
          decide (¬ d.table.Awake Sample.two)) = true := by
      decide +kernel
    obtain ⟨c, hr, hc⟩ := Reached.of_runs Sample.node_honest (by decide) hrun
    simp only [Bool.and_eq_true, decide_eq_true_eq] at hc
    obtain ⟨⟨⟨⟨hnone, hseed⟩, halone⟩, hfollows⟩, hleaves⟩ := hc
    obtain ⟨stats, d, hd, htest⟩ := collect_of_leaves hleaves
    have hf := follows_spec hfollows
    have hholds : Holds c.schema c.table c.clusters Sample.one Sample.two :=
      ⟨hf.source, .reference halone hf.edge hf.alive, hf.target⟩
    exact ⟨c, d, stats, hr, hnone, hd, hseed, .single hholds, of_decide_eq_true htest⟩
  · have hrun : runs { Settings.serial with memberKeepsCluster := true } Sample.node outdated
        (fun c => c.settings.memberKeepsCluster &&
          decide (c.table.Seed (.single .reachableInCluster) Sample.two) &&
          decide (c.table.Awake Sample.two) &&
          c.leaves (.single .reachableInCluster) false fun d =>
            decide (¬ d.table.Awake Sample.two)) = true := by
      decide +kernel
    obtain ⟨c, hr, hc⟩ := Reached.of_runs Sample.node_honest (by decide) hrun
    simp only [Bool.and_eq_true, decide_eq_true_eq] at hc
    obtain ⟨⟨⟨hkeeping, hseed⟩, hawake⟩, hleaves⟩ := hc
    obtain ⟨stats, d, hd, htest⟩ := collect_of_leaves hleaves
    exact ⟨c, d, stats, hr, hkeeping, hd, hseed, hawake, of_decide_eq_true htest⟩

end Collector

end TracingHeap
