import TracingHeap.Proofs.Program.StoredReference

namespace TracingHeap

namespace Table

variable {s : Schema} {t t' t₁ t₂ : Table} {cs : Clusters} {x : Site} {g h : Handle}

def WeakAt (s : Schema) (t : Table) (x : Site) (g : Handle) : Prop :=
  ∃ o, t.get? x.object = some o ∧ s.Reports o x.address .weak ∧ o.slot? x.address = some (some g)

theorem WeakAt.slotAt?_eq (hx : t.WeakAt s x g) : t.slotAt? x = some (some g) := by
  obtain ⟨o, ho, -, hslot⟩ := hx
  exact (Table.slotAt?_eq ho).trans hslot

theorem WeakAt.edge (hx : t.WeakAt s x g) : Edge s t x.object .weak g := by
  obtain ⟨o, ho, hrep, hslot⟩ := hx
  exact ⟨o, x.address, ho, hrep, hslot⟩

/-- An object that survives has lost a weak reference to one that does not. The tables are those before
and after; what is in the pool survives. -/
structure LosesWeak (s : Schema) (t t' : Table) (x : Site) (g : Handle) : Prop where
  survives : t.isPermanent x.object = true ∨ t'.Awake x.object
  weak : t.WeakAt s x g
  empty : t'.slotAt? x = some none
  dead : ¬ t'.Awake g

/-- The object of the slot is outside the pool and belongs to no cluster in the end, and the slot led to an
object outside the pool that was killed. -/
def Severed (t t' : Table) (x : Site) (g : Handle) : Prop :=
  t.isPermanent x.object = false ∧ t'.rootOf x.object = none ∧ ¬ t.Tenable g

/-- The number is that of the weak references that survivors lose, but for the severed ones. -/
def Clears (s : Schema) (t t' : Table) (n : Nat) : Prop :=
  ∃ sites : List Site, sites.Nodup ∧ sites.length = n ∧
    ∀ x, x ∈ sites ↔ ∃ g, t.LosesWeak s t' x g ∧ ¬ t.Severed t' x g

instance (t : Table) (g : Handle) : Decidable (t.Tenable g) := inferInstanceAs (Decidable (_ ∨ _))

instance (t t' : Table) (x : Site) (g : Handle) : Decidable (t.Severed t' x g) :=
  inferInstanceAs (Decidable (_ ∧ _))

namespace Spares

/-- What is in the pool or not flagged is there after a purge exactly if it was before. -/
theorem contains_eq (a : t.Spares t') (hh : t.isPermanent h = true ∨ t.Awake h) :
    t'.contains h = t.contains h := by
  rcases hh with hp | hawake
  · exact a.pooled h hp
  · rw [contains, contains, a.get?_eq hawake]

theorem slotAt?_eq (a : t.Spares t') (hh : t.isPermanent x.object = true ∨ t.Awake x.object) :
    t'.slotAt? x = t.slotAt? x := by
  have hin := a.contains_eq hh
  cases ho' : t'.get? x.object with
  | none =>
    have ho : t.get? x.object = none := by simpa [contains, ho'] using hin.symm
    simp [slotAt?, ho, ho']
  | some o' =>
    obtain ⟨o, ho, hw⟩ := a.back _ o' ho'
    simp [slotAt?, ho, ho', Object.slot?, hw.cells]

theorem weakAt_iff (a : t.Spares t') (hs : s.Regular) (hfit : ∀ h o, t.get? h = some o → s.Fits o)
    (hh : t.isPermanent x.object = true ∨ t.Awake x.object) :
    t'.WeakAt s x g ↔ t.WeakAt s x g := by
  constructor
  · rintro ⟨o', ho', hrep, hslot⟩
    obtain ⟨o, ho, hw⟩ := a.back _ o' ho'
    have hthin : o.Thins s (fun _ => False) o' := .of_cells hw.toSame hw.cells
    exact ⟨o, ho, hthin.reports_back hs (hfit _ o ho) hrep hslot, hthin.slot_back hslot⟩
  · intro hx
    have hslot := (a.slotAt?_eq hh).trans hx.slotAt?_eq
    obtain ⟨o, ho, hrep, -⟩ := hx
    obtain ⟨o', ho'⟩ := contains_iff.mp ((a.contains_eq hh).trans (contains_iff.mpr ⟨o, ho⟩))
    obtain ⟨p, hp, hw⟩ := a.back _ o' ho'
    rw [ho] at hp
    cases hp
    rw [Table.slotAt?_eq ho'] at hslot
    have hthin : o.Thins s (fun _ => False) o' := .of_cells hw.toSame hw.cells
    exact ⟨o', ho', hthin.reports_stays hs (hfit _ o ho) hrep hslot, hslot⟩

end Spares

/-- The purges before and after a search lose no weak reference, and give none back. -/
theorem losesWeak_spared_iff (hs : s.Regular) (hfit : ∀ h o, t.get? h = some o → s.Fits o)
    (first : t.Spares t₁) (last : t₂.Spares t') (hp : ∀ h, t₂.isPermanent h = t₁.isPermanent h)
    (hback : ∀ h, t₂.Awake h → t₁.Awake h) :
    t₁.LosesWeak s t₂ x g ↔ t.LosesWeak s t' x g := by
  have hsurvives : (t₁.isPermanent x.object = true ∨ t₂.Awake x.object) ↔
      (t.isPermanent x.object = true ∨ t'.Awake x.object) := by
    rw [first.isPermanent]
    exact or_congr_right ⟨last.awake, last.awake_back⟩
  have hbefore : t.isPermanent x.object = true ∨ t'.Awake x.object →
      t.isPermanent x.object = true ∨ t.Awake x.object :=
    Or.imp_right fun ha => first.awake_back (hback _ (last.awake_back ha))
  have hafter : t.isPermanent x.object = true ∨ t'.Awake x.object →
      t₂.isPermanent x.object = true ∨ t₂.Awake x.object :=
    Or.imp (fun h => (hp _).trans ((first.isPermanent _).trans h)) last.awake_back
  constructor
  · intro l
    have hh := hsurvives.mp l.survives
    exact ⟨hh, (first.weakAt_iff hs hfit (hbefore hh)).mp l.weak,
      (last.slotAt?_eq (hafter hh)).trans l.empty, mt last.awake_back l.dead⟩
  · intro l
    have hh := l.survives
    exact ⟨hsurvives.mpr hh, (first.weakAt_iff hs hfit (hbefore hh)).mpr l.weak,
      (last.slotAt?_eq (hafter hh)).symm.trans l.empty, mt last.awake l.dead⟩

theorem LosesWeak.severed_iff (l : t₁.LosesWeak s t₂ x g) (hs : Settled s t₁ cs)
    (first : t.Spares t₁) (last : t₂.Spares t') (hback : ∀ h, t₂.Awake h → t₁.Awake h) :
    t₁.Severed t₂ x g ↔ t.Severed t' x g := by
  unfold Severed
  rw [first.isPermanent]
  refine and_congr_right fun hp => ?_
  have hawake : t₂.Awake x.object := l.survives.resolve_left fun h => by
    rw [first.isPermanent, hp] at h
    cases h
  -- the target was there, so the purge before has left it as it was
  have hg := hs.linked _ .weak g l.weak.edge (hback _ hawake) (.inl rfl)
  have hkill : t₁.has g .pendingKill = t.has g .pendingKill := by
    rw [has, has, first.get?_eq (first.awake_back hg)]
  rw [last.rootOf_eq hawake, tenable_congr first.boundary hkill]

end Table

/-- What is not flagged after the search for the dead was not flagged before. -/
theorem Condemns.awake_back {s : Schema} {keeping : Bool} {keep : Flags} {good : Handle → Prop}
    {t t' : Table} {cs cs' : Clusters} {h : Handle} (a : Condemns s keeping keep good t cs t' cs')
    (hh : t'.Awake h) : t.Awake h := by
  obtain ⟨o, ho⟩ := a.live h hh
  cases hp : t.isPermanent h with
  | false => exact ⟨o, ho, a.fresh h o ho hp⟩
  | true =>
    refine ⟨o, ho, Bool.eq_false_iff.mpr fun hu => ?_⟩
    have hflag := a.pooled h hp ((Table.isUnreachable_of_get? ho).trans hu)
    rw [hh.isUnreachable] at hflag
    cases hflag

namespace Collector

variable {c d : Collector} {keep : Flags} {seeds roots : List Handle} {t₀ t₁ t₂ : Table} {r : Stand}
  {cs₁ : Clusters} {cleared : Nat} {g : Handle} {stats : Statistics}

/-- A search counts the weak references that survivors lose, but for those that a trace has severed. -/
theorem Search.clears (a : c.Search keep seeds t₀ r roots t₁ cs₁ cleared t₂) (hc : c.Sound)
    (run : MarksRounds c.schema c.settings.memberKeepsCluster seeds ⟨t₀, c.clusters, .empty, 0⟩ r) :
    c.table.Clears c.schema t₂ cleared := by
  have hs := hc.settled.orderly
  obtain ⟨sites, hdistinct, hlen, hmem⟩ := a.nulls.counted
  refine ⟨sites, hdistinct, hlen, fun x => (hmem x).trans ?_⟩
  have hperm := a.thins.isPermanent x.object
  have hten : ∀ g, t₁.Tenable g ↔ c.table.Tenable g := fun g =>
    Table.tenable_congr a.thins.boundary (a.has_pendingKill g)
  constructor
  · rintro ⟨hnone, g, hslot⟩
    obtain ⟨hheed, o₁, g', ho₁, hrep, hslot', hu⟩ := a.nulls.within x g hslot hnone
    obtain rfl : g' = g := by
      rw [Table.slotAt?_eq ho₁, hslot'] at hslot
      simpa using hslot
    obtain ⟨o, ho, hthin⟩ := a.thins.back ho₁
    have hdead : ¬ t₂.Awake g' := fun hawake => by
      rw [(a.nulls.drops.awake_back hawake).isUnreachable] at hu
      cases hu
    refine ⟨g', ⟨hheed.imp hperm.symm.trans a.nulls.drops.awake, ⟨o, ho, ?_, hthin.slot_back hslot'⟩,
      hnone, hdead⟩, ?_⟩
    · exact hthin.reports_back hs.regular (hs.fits _ o ho) hrep hslot'
    · -- the references that are left to an object outside clusters do not lead to what was killed
      rintro ⟨hp, hroot, hkilled⟩
      have hp₁ := hperm.trans hp
      have hawake := hheed.resolve_left (Bool.eq_false_iff.mp hp₁)
      rw [a.nulls.drops.rootOf] at hroot
      have hedge : Edge c.schema t₁ x.object .weak g' := ⟨o₁, x.address, ho₁, hrep, hslot'⟩
      exact hkilled ((hten g').mp (a.judged.tenable hawake hp₁ hroot hedge))
  · rintro ⟨g, hlost, hnot⟩
    rcases a.severs hc run x with hsame | ⟨-, ⟨hp, o, k, g', ho, -, hslot, hkilled⟩, hlone⟩
    · exact ⟨hlost.empty, g, hsame.trans hlost.weak.slotAt?_eq⟩
    · obtain rfl : g' = g := by
        have hsame := hlost.weak.slotAt?_eq
        rw [Table.slotAt?_eq ho, hslot] at hsame
        simpa using hsame
      obtain ⟨o₁, ho₁, hown, hroot⟩ := hlone
      refine absurd ⟨hp, ?_, hkilled⟩ hnot
      rw [a.nulls.drops.rootOf, Table.rootOf_eq ho₁, hown, hroot]
      rfl

theorem clears_of_condemn (hc : c.Sound) (hok : c.condemn keep = .ok (stats, d)) :
    c.table.Clears c.schema d.table stats.weakCleared := by
  obtain ⟨_, _, _, _, _, a, marked⟩ := search_of_condemn hc hok
  exact a.clears hc marked

/-- A collection counts the same as its search for the dead: what the purges take away is not there when it
begins to look, or is what it has found. -/
theorem clears_of_collect (hc : c.Sound) (hs : c.Standing) {full : Bool}
    (hok : c.collect keep full = .ok (stats, d)) :
    c.table.Clears c.schema d.table stats.weakCleared := by
  obtain ⟨n, b, hfinish, found, m, hcondemn, freed, e, hfreed, hstats, rfl⟩ := collect_ok hok
  obtain ⟨hfirst, hb⟩ := hs.first_phase hc hfinish
  have hm := hb.sound.condemned hcondemn
  have hlast := last_phase hm.1 hfreed
  obtain ⟨sites, hdistinct, hlen, hmem⟩ := clears_of_condemn hb.sound hcondemn
  rw [hstats]
  refine ⟨sites, hdistinct, hlen, fun x => (hmem x).trans (exists_congr fun g => ?_)⟩
  have ho := hc.settled.orderly
  have hback : ∀ h, m.table.Awake h → b.table.Awake h := fun h => hm.2.2.2.awake_back
  rw [hfirst.schema]
  have hlost := Table.losesWeak_spared_iff (x := x) (g := g) ho.regular ho.fits hfirst.spares
    hlast.spares hm.2.2.2.isPermanent hback
  have hsettled : Settled c.schema b.table b.clusters := hfirst.schema ▸ hb.sound.settled
  constructor
  · intro l
    exact ⟨hlost.mp l.1,
      mt (l.1.severed_iff hsettled hfirst.spares hlast.spares hback).mpr l.2⟩
  · intro l
    have l' := hlost.mpr l.1
    exact ⟨l', mt (l'.severed_iff hsettled hfirst.spares hlast.spares hback).mp l.2⟩

end Collector

/-- What a collection reports of weak references. It counts the slots, each of them once, in which a
survivor has lost a weak reference to an object that does not survive, be the survivor standalone, in a
cluster or in the pool. What it leaves out are the slots of standalone survivors that led to killed
objects: these are emptied while the survivor is traced. -/
theorem Reached.weak_cleared {c d : Collector} (hr : Reached c) {op : Operation} {stats : Statistics}
    (hok : c.perform op = .ok (.collected stats, d)) :
    ∃ sites : List Site, sites.Nodup ∧ sites.length = stats.weakCleared ∧ ∀ x, x ∈ sites ↔
      ∃ g, c.table.LosesWeak c.schema d.table x g ∧ ¬ c.table.Severed d.table x g := by
  obtain ⟨lock, misses, keep, full, hcollect⟩ := Collector.told_of_perform hok
  exact Collector.clears_of_collect (c := c.relocked lock misses) (hr.sound.relocked lock misses)
    hr.standing hcollect

namespace Collector

variable {c d : Collector} {x : Site} {g : Handle}

def losesWeak (c d : Collector) (x : Site) (g : Handle) : Bool :=
  c.reports x .weak && c.table.slotAt? x == some (some g) && decide (d.table.Awake x.object) &&
    d.table.slotAt? x == some none && !decide (d.table.Awake g)

theorem losesWeak_spec (hx : c.losesWeak d x g = true) :
    c.table.LosesWeak c.schema d.table x g := by
  simp only [losesWeak, Bool.and_eq_true, Bool.not_eq_true', decide_eq_true_eq,
    decide_eq_false_iff_not, beq_iff_eq] at hx
  obtain ⟨⟨⟨⟨hrep, hslot⟩, hawake⟩, hempty⟩, hdead⟩ := hx
  obtain ⟨o, ho, hrep⟩ := reported_of_reports hrep
  exact ⟨.inr hawake, ⟨o, ho, hrep, (Table.slotAt?_eq ho).symm.trans hslot⟩, hempty, hdead⟩

end Collector

open Collector Sample in
/-- A standalone root and the root of a cluster both lose a weak reference, the one to an object that has
died, the other to an object that was killed. Both are counted. -/
theorem weak_cleared_two : ∃ (c d : Collector) (stats : Statistics) (sites : List Site), Reached c ∧
    c.perform (.collect .empty true) = .ok (.collected stats, d) ∧ stats.weakCleared = 2 ∧
    sites.length = 2 ∧ ⟨one, ⟨1, .here⟩⟩ ∈ sites ∧ ⟨three, ⟨1, .here⟩⟩ ∈ sites := by
  have hrun : runs .serial node (nodes 4 ++ [.formCluster three [], .addRoot one, .addRoot three,
      .setReference one 1 (some two), .setReference three 1 (some four), .kill four]) (fun c =>
        !c.isHeld && (c.collect .empty true).toOption.any fun found =>
          found.1.weakCleared == 2 &&
            (c.losesWeak found.2 ⟨one, ⟨1, .here⟩⟩ two &&
              !decide (c.table.Severed found.2.table ⟨one, ⟨1, .here⟩⟩ two)) &&
            (c.losesWeak found.2 ⟨three, ⟨1, .here⟩⟩ four &&
              !decide (c.table.Severed found.2.table ⟨three, ⟨1, .here⟩⟩ four))) = true := by
    decide +kernel
  obtain ⟨c, hr, hc⟩ := Reached.of_runs node_honest (by decide +kernel) hrun
  obtain ⟨hheld, hafter⟩ := Bool.and_eq_true_iff.mp hc
  obtain ⟨⟨stats, d⟩, hcollect, hfound⟩ := except_of_toOption_any hafter
  simp only [Bool.and_eq_true, Bool.not_eq_true', decide_eq_false_iff_not, beq_iff_eq] at hheld hfound
  obtain ⟨⟨hcount, hone, hone'⟩, hthree, hthree'⟩ := hfound
  have hok : c.perform (.collect .empty true) = .ok (.collected stats, d) :=
    perform_collect hheld hcollect
  obtain ⟨sites, -, hlen, hmem⟩ := hr.weak_cleared hok
  exact ⟨c, d, stats, sites, hr, hok, hcount, hlen.trans hcount,
    (hmem _).mpr ⟨two, losesWeak_spec hone, hone'⟩,
    (hmem _).mpr ⟨four, losesWeak_spec hthree, hthree'⟩⟩

open Collector Sample in
/-- A standalone root loses its weak reference to an object that was killed and has died, and nothing is
counted. -/
theorem weak_lost_uncounted : ∃ (c d : Collector) (stats : Statistics), Reached c ∧
    c.perform (.collect .empty false) = .ok (.collected stats, d) ∧
    c.table.LosesWeak c.schema d.table ⟨one, ⟨1, .here⟩⟩ two ∧ stats.weakCleared = 0 := by
  have hrun : runs .serial node (nodes 2 ++ [.addRoot one, .setReference one 1 (some two),
      .kill two]) (fun c => !c.isHeld && (c.collect .empty false).toOption.any fun found =>
        found.1.weakCleared == 0 && c.losesWeak found.2 ⟨one, ⟨1, .here⟩⟩ two) = true := by
    decide +kernel
  obtain ⟨c, hr, hc⟩ := Reached.of_runs node_honest (by decide +kernel) hrun
  obtain ⟨hheld, hafter⟩ := Bool.and_eq_true_iff.mp hc
  obtain ⟨⟨stats, d⟩, hcollect, hfound⟩ := except_of_toOption_any hafter
  simp only [Bool.and_eq_true, Bool.not_eq_true', beq_iff_eq] at hheld hfound
  have hok : c.perform (.collect .empty false) = .ok (.collected stats, d) :=
    perform_collect hheld hcollect
  exact ⟨c, d, stats, hr, hok, losesWeak_spec hfound.2, hfound.1⟩

end TracingHeap
