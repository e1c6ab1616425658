import TracingHeap.Proofs.Mark.WorkLeft
import TracingHeap.Proofs.Collection.Survivors

namespace TracingHeap

namespace Object

def isLoose (o : Object) : Bool := o.owner.isNone && !o.has .clusterRoot

def isSolitary (o : Object) : Bool := o.isLoose && !o.isUnreachable

/-- The object is a member or the root of a cluster, and a seed of a mark with these keep flags. -/
def isBoundSeed (keep : Flags) (o : Object) : Bool :=
  !o.isUnreachable && !o.isLoose && o.isSeed (keep.union Flags.keep)

theorem isSolitary_iff {o : Object} : o.isSolitary = true ↔
    o.owner = none ∧ o.has .clusterRoot = false ∧ o.isUnreachable = false := by
  simp [isSolitary, isLoose, and_assoc]

end Object

namespace Table

variable {t t' t'' : Table} {g h : Handle} {o : Object} {l m : List Handle}

def Solitary (t : Table) (h : Handle) : Prop := ∃ o, t.get? h = some o ∧ o.isSolitary = true

theorem solitary_of_get? (ho : t.get? h = some o) : t.Solitary h ↔ o.isSolitary = true := by
  simp [Solitary, ho]

theorem solitary_iff : t.Solitary h ↔ t.Lone h ∧ t.Free h := by
  constructor
  · intro hs
    obtain ⟨o, ho, hs⟩ := hs
    obtain ⟨hown, hroot, hu⟩ := Object.isSolitary_iff.mp hs
    exact ⟨⟨o, ho, hown, hroot⟩, ⟨o, ho, hown, hu⟩⟩
  · intro hs
    obtain ⟨⟨o, ho, hown, hroot⟩, ⟨p, hp, -, hu⟩⟩ := hs
    rw [ho] at hp
    cases hp
    exact ⟨o, ho, Object.isSolitary_iff.mpr ⟨hown, hroot, hu⟩⟩

/-- The listed objects have come to stand alone between the two tables; whatever did before still does. -/
structure Gains (t : Table) (l : List Handle) (t' : Table) : Prop where
  distinct : l.Nodup
  mem : ∀ g, g ∈ l ↔ t'.Solitary g ∧ ¬ t.Solitary g
  keeps : ∀ g, t.Solitary g → t'.Solitary g

theorem Gains.trans (a : t.Gains l t') (b : t'.Gains m t'') : t.Gains (l ++ m) t'' := by
  refine ⟨List.nodup_append.mpr ⟨a.distinct, b.distinct, ?_⟩, fun g => ?_,
    fun g hg => b.keeps g (a.keeps g hg)⟩
  · rintro g hg _ hg' rfl
    exact ((b.mem g).mp hg').2 ((a.mem g).mp hg).1
  · rw [List.mem_append, a.mem, b.mem]
    constructor
    · rintro (⟨hmid, hnot⟩ | ⟨hlast, hmid⟩)
      · exact ⟨b.keeps g hmid, hnot⟩
      · exact ⟨hlast, fun hg => hmid (a.keeps g hg)⟩
    · rintro ⟨hlast, hnot⟩
      by_cases hmid : t'.Solitary g
      · exact .inl ⟨hmid, hnot⟩
      · exact .inr ⟨hlast, hmid⟩

end Table

theorem Retains.solitary {s : Schema} {t t' : Table} {cs cs' : Clusters} {g : Handle}
    (a : Retains s t cs t' cs') (hg : t.Solitary g) : t'.Solitary g := by
  obtain ⟨hlone, hfree⟩ := Table.solitary_iff.mp hg
  exact Table.solitary_iff.mpr ⟨a.lone g hlone, a.free g hfree⟩

namespace Tracer

variable {tr : Tracer} {good : Handle → Prop} {wave : List Handle} {t₀ t t' : Table}
  {tally tally' : Tally} {front : Handle → Prop}

/-- Every entry of a wave is counted, and later waves hold just what has been claimed. The induction is on
the waves. -/
theorem Floods.counted (run : tr.Floods wave t tally t' tally')
    {gray₀ : Handle → Prop} {weak₀ : Site → Prop}
    (p₀ : Tracing tr.schema tr.clusters tr.memberKeepsCluster good gray₀ weak₀ t₀)
    (hfront : ∀ h, front h → t₀.isPermanent h = false) (a : t₀.Advances tr.schema t)
    (s : t₀.Struck (tr.scope t₀ (fun _ => True) front) (fun _ => False) t)
    (hwave : ∀ h ∈ wave, Hits tr t₀ (fun _ => True) front h)
    (p : Tracing tr.schema tr.clusters tr.memberKeepsCluster good (· ∈ wave) (· ∈ tally.weak) t) :
    ∃ later : List Handle, later.Nodup ∧ (∀ g, g ∈ later ↔ t.Claims t' g) ∧
      tally'.scanned = tally.scanned + wave.length + later.length := by
  induction run with
  | done => exact ⟨[], .nil, fun g => by simp [Table.Struck.not_claims_refl], rfl⟩
  | @next wave wave' _ _ _ _ _ _ _ _ takes order others ih =>
    have hfirst := takes.waved order p₀ hfront a s (fun h hh => ⟨hwave h hh, trivial⟩) p
    have ha := a.trans hfirst.advances
    have hs := s.trans hfirst.struck
    have hnext : ∀ h ∈ wave', Hits tr t₀ (fun _ => True) front h := fun h hh =>
      hfirst.struck.hit_of_claims ((hfirst.next h).mp hh)
    have hrest := others.flooded p₀ hfront ha hs hnext hfirst.tracing
    obtain ⟨later, hdistinct, hlater, hscanned⟩ := ih ha hs hnext hfirst.tracing
    refine ⟨wave' ++ later, List.nodup_append.mpr ⟨hfirst.distinct, hdistinct, ?_⟩, fun g => ?_, ?_⟩
    · rintro g hg _ hg' rfl
      have hawake := ((hfirst.next g).mp hg).2.1
      rw [((hlater g).mp hg').1] at hawake
      cases hawake
    · rw [List.mem_append, hfirst.next, hlater, hfirst.struck.claims_trans hrest.struck]
    · rw [hscanned, hfirst.scanned, List.length_append]
      omega

/-- What a trace claims comes to stand alone. -/
theorem Flooded.solitary_iff {w : Scope} {gray : Handle → Prop} {weak : Site → Prop} {g : Handle}
    (b : Flooded tr good w wave t tally t' tally')
    (p : Tracing tr.schema tr.clusters tr.memberKeepsCluster good gray weak t) :
    t.Claims t' g ↔ t'.Solitary g ∧ ¬ t.Solitary g := by
  cases ho : t.get? g with
  | none =>
    have ho' := b.struck.objects.gone g ho
    simp [Table.Claims, Table.Solitary, Table.isUnreachable, Table.has, ho, ho']
  | some o =>
    obtain ⟨o', ho', hs⟩ := b.struck.objects.kept g o ho
    rw [Table.solitary_of_get? ho, Table.solitary_of_get? ho', Table.Claims,
      Table.isUnreachable_of_get? ho, Table.isUnreachable_of_get? ho', Table.has_of_get? ho',
      Object.isSolitary_iff, Object.isSolitary_iff, hs.owner, hs.has (by decide)]
    constructor
    · rintro ⟨hu, hu', hroot⟩
      refine ⟨⟨p.owner_eq_none ho hu, hroot, hu'⟩, fun h => ?_⟩
      rw [hu] at h
      cases h.2.2
    · rintro ⟨⟨hown, hroot, hu'⟩, hnot⟩
      refine ⟨?_, hu', hroot⟩
      rw [← Bool.not_eq_false]
      exact fun hu => hnot ⟨hown, hroot, hu⟩

end Tracer

namespace Clusters.Scattered

variable {s : Schema} {keeping : Bool} {good : Handle → Prop} {weak : Site → Prop}
  {t t' : Table} {cs cs' : Clusters} {survivors gone : List Handle} {g : Handle}

/-- The members that outlive their clusters come to stand alone. -/
theorem gains (p : Tracing s cs keeping good (fun _ => False) weak t) (hdistinct : gone.Nodup)
    (hdead : ∀ r ∈ gone, ∃ c ∈ cs.list, c.root = r ∧ t.isUnreachable r = true)
    (b : Scattered s keeping good weak t cs gone (survivors, t', cs')) : t.Gains survivors t' := by
  have ho₀ := p.orderly
  refine ⟨b.survivors.nodup_iff.mpr (nodup_survivors_of ho₀.enrolled hdistinct), fun g => ?_,
    fun g hg => (b.retains hdead p).solitary hg⟩
  cases ho : t.get? g with
  | none =>
    have ho' := b.table.gone g ho
    constructor
    · intro hm
      obtain ⟨q, hq, -⟩ := b.free g hm
      rw [ho'] at hq
      cases hq
    · rintro ⟨⟨q, hq, -⟩, -⟩
      rw [ho'] at hq
      cases hq
  | some o =>
    obtain ⟨o', ho', hfate⟩ := b.table.kept g o ho
    rw [mem_survivors_iff ho₀ b ho, Table.solitary_of_get? ho, Table.solitary_of_get? ho',
      Object.isSolitary_iff, Object.isSolitary_iff]
    by_cases hg : g ∈ gone
    · obtain ⟨c, hc, rfl, hu⟩ := hdead g hg
      rw [Table.isUnreachable_of_get? ho] at hu
      have hstill : o'.isUnreachable = true := by
        rw [hfate, Object.fate, if_pos hg, ← hu]
        simp [Object.disband, Object.isUnreachable]
      simp [ho₀.enrolled.owner_root hc ho, hstill]
    by_cases hmember : ∃ r ∈ gone, o.owner = some r
    · rw [Object.fate, if_neg hg, if_pos hmember] at hfate
      subst hfate
      obtain ⟨r, hr, hown⟩ := hmember
      obtain ⟨c, hc, -, hm⟩ := ho₀.enrolled.listed g o r ho hown
      obtain ⟨q, hq, -, hu⟩ := ho₀.enrolled.member c hc g hm
      rw [ho] at hq
      cases hq
      rw [o.owner_release, o.has_release (by decide) (by decide), o.isUnreachable_release hu,
        ho₀.enrolled.not_root_of_owner ho hown]
      simp [hr, hown]
    · rw [Object.fate, if_neg hg, if_neg hmember] at hfate
      subst hfate
      simp [hmember]

/-- Each dissolved cluster is a cluster less. -/
theorem size_add (ho : Orderly s t cs) (hdistinct : gone.Nodup)
    (hdead : ∀ r ∈ gone, ∃ c ∈ cs.list, c.root = r ∧ t.isUnreachable r = true)
    (b : Scattered s keeping good weak t cs gone (survivors, t', cs')) :
    cs'.size + gone.length = cs.size := by
  have hgone : ((cs.list.map (·.root)).filter fun r => decide (r ∈ gone)).Perm gone := by
    refine (List.perm_ext_iff_of_nodup (ho.enrolled.distinct.filter _) hdistinct).mpr fun r => ?_
    rw [List.mem_filter, decide_eq_true_eq]
    refine and_iff_right_of_imp fun hr => ?_
    obtain ⟨c, hc, rfl, -⟩ := hdead r hr
    exact List.mem_map_of_mem hc
  have hsplit := List.length_eq_length_filter_add (l := cs.list.map (·.root)) fun r => decide (r ∈ gone)
  rw [hgone.length_eq, List.length_map] at hsplit
  have hleft : cs'.size = ((cs.list.map (·.root)).filter fun r => !decide (r ∈ gone)).length := by
    simpa using b.size_eq
  rw [hleft, size, hsplit, Nat.add_comm]

end Clusters.Scattered

section

variable {s : Schema} {keeping : Bool} {good : Handle → Prop}

/-- In a turn, what has come to stand alone has been counted, or is the frontier of the next. -/
theorem Turned.counted {t t₁ t₂ : Table} {cs cs₁ cs₂ : Clusters} {frontier roots survivors : List Handle}
    {tally tally₁ : Tally}
    (p : Tracing s cs keeping good (· ∈ frontier) (· ∈ tally.weak) t) (same : cs.Alike cs₁)
    (floods : (Tracer.mk s cs₁ keeping).Floods frontier t tally t₁ tally₁)
    (order : roots.Perm ((cs₁.list.filter (Clusters.outlived t₁)).map (·.root)))
    (scatters : Clusters.Scatters s roots ([], t₁, cs₁) (survivors, t₂, cs₂)) :
    (∃ more, t.Gains more t₂ ∧
      tally₁.scanned + survivors.length = tally.scanned + frontier.length + more.length) ∧
      cs₂.size + roots.length = cs.size := by
  have b := Turned.intro p same floods order scatters
  have p₁ := p.alike same
  have hdistinct := (Clusters.dead_of_filter b.flooded.tracing.orderly outlived_dead order).1
  obtain ⟨later, hlater, hmem, hscanned⟩ := floods.counted p₁ (fun h hh => (p.queued h hh).1)
    (.refl t) (.refl t) (fun h hh => .front hh) p₁
  have hfirst : t.Gains later t₁ :=
    ⟨hlater, fun g => by rw [hmem, b.flooded.solitary_iff p₁], fun g hg => b.traced.solitary hg⟩
  have hlast := b.scattered.gains b.flooded.tracing hdistinct b.dead
  refine ⟨⟨later ++ survivors, hfirst.trans hlast, ?_⟩, ?_⟩
  · rw [hscanned, List.length_append, Nat.add_assoc]
  · have hsize : cs₁.size = cs.size := by
      rw [Clusters.size, Clusters.size, ← List.length_map Cluster.root,
        ← List.length_map Cluster.root]
      exact same.roots.length_eq.symm
    rw [← hsize]
    exact b.scattered.size_add b.flooded.tracing.orderly hdistinct b.dead

/-- A mark counts its frontier and everything that comes to stand alone, and each cluster that it breaks up
is a cluster less. The induction is on the turns. -/
theorem MarksRounds.counted {frontier : List Handle} {st r : Stand}
    (run : MarksRounds s keeping frontier st r)
    (p : Tracing s st.clusters keeping good (· ∈ frontier) (· ∈ st.tally.weak) st.table) :
    (∃ more, st.table.Gains more r.table ∧
      r.tally.scanned = st.tally.scanned + frontier.length + more.length) ∧
      r.dissolved + r.clusters.size = st.dissolved + st.clusters.size := by
  induction run with
  | last same floods order scatters =>
    obtain ⟨⟨more, hgains, hscanned⟩, hsize⟩ := Turned.counted p same floods order scatters
    refine ⟨⟨more, hgains, hscanned⟩, ?_⟩
    dsimp only at hsize ⊢
    omega
  | next same floods order scatters some others ih =>
    have b := Turned.intro p same floods order scatters
    obtain ⟨⟨more, hgains, hscanned⟩, hsize⟩ := Turned.counted p same floods order scatters
    obtain ⟨⟨rest, hrest, hscanned'⟩, hsize'⟩ := ih b.scattered.tracing
    refine ⟨⟨more ++ rest, hgains.trans hrest, ?_⟩, ?_⟩
    · rw [hscanned', List.length_append, ← Nat.add_assoc]
      exact congrArg (· + rest.length) hscanned
    · dsimp only at hsize hsize' ⊢
      omega

end

namespace Table

variable {s : Schema} {t t' : Table} {f f' : Object → Bool} {l : List Handle} {g h : Handle}

theorem Tidy.nodup_filter (ht : t.Tidy) (f : Object → Bool) :
    ((t.collectable.filter f).map (·.handle)).Nodup :=
  ht.nodup_collectable.sublist (List.filter_sublist.map _)

theorem Tidy.mem_filter (ht : t.Tidy) : h ∈ (t.collectable.filter f).map (·.handle) ↔
    t.isPermanent h = false ∧ ∃ o, t.get? h = some o ∧ f o = true := by
  rw [List.mem_map]
  constructor
  · rintro ⟨o, hm, rfl⟩
    obtain ⟨hm, hf⟩ := List.mem_filter.mp hm
    obtain ⟨ho, hp⟩ := ht.mem_collectable.mp hm
    exact ⟨hp, o, ho, hf⟩
  · rintro ⟨hp, o, ho, hf⟩
    have hh := ht.handle_eq ho
    subst hh
    exact ⟨o, List.mem_filter.mpr ⟨ht.mem_collectable.mpr ⟨ho, hp⟩, hf⟩, rfl⟩

/-- A list of the collectable objects of some kind is as long as they are many. -/
theorem Tidy.length_eq_countP (ht : t.Tidy) (hl : l.Nodup)
    (hmem : ∀ h, h ∈ l ↔ t.isPermanent h = false ∧ ∃ o, t.get? h = some o ∧ f o = true) :
    l.length = t.collectable.countP f := by
  have hperm : l.Perm ((t.collectable.filter f).map (·.handle)) :=
    (List.perm_ext_iff_of_nodup hl (ht.nodup_filter f)).mpr fun h => (hmem h).trans ht.mem_filter.symm
  rw [hperm.length_eq, List.length_map, List.countP_eq_length_filter]

/-- Two tables have as many collectable objects of a kind where they have the same. -/
theorem Tidy.countP_eq (ht : t.Tidy) (ht' : t'.Tidy) (hb : t'.boundary = t.boundary)
    (heq : ∀ h, t.isPermanent h = false →
      ((∃ o, t'.get? h = some o ∧ f' o = true) ↔ ∃ o, t.get? h = some o ∧ f o = true)) :
    t'.collectable.countP f' = t.collectable.countP f := by
  rw [List.countP_eq_length_filter, ← List.length_map Object.handle]
  refine ht.length_eq_countP (ht'.nodup_filter f') fun h => ht'.mem_filter.trans ?_
  have hp : t'.isPermanent h = t.isPermanent h := by rw [isPermanent, isPermanent, hb]
  rw [hp]
  exact and_congr_right (heq h)

/-- Where every object stays, so does their number. -/
theorem Evolves.length_collectable {R : Handle → Object → Object → Prop} (e : t.Evolves R t')
    (ht : t.Tidy) : t'.collectable.length = t.collectable.length := by
  rw [← List.countP_true]
  refine ht.countP_eq (e.tidy ht) e.boundary fun h _ => ?_
  constructor
  · rintro ⟨o', ho', -⟩
    obtain ⟨o, ho, -⟩ := e.back ho'
    exact ⟨o, ho, rfl⟩
  · rintro ⟨o, ho, -⟩
    obtain ⟨o', ho', -⟩ := e.kept h o ho
    exact ⟨o', ho', rfl⟩

/-- A purge leaves the number of objects that are not flagged. -/
theorem Spares.countP_eq (a : t.Spares t') (ht : t.Tidy)
    (hf : ∀ o, f o = true → o.isUnreachable = false) :
    t'.collectable.countP f = t.collectable.countP f := by
  refine ht.countP_eq a.tidy a.boundary fun h _ => ?_
  constructor
  · rintro ⟨o, ho, ho'⟩
    exact ⟨o, (a.get?_eq (a.awake_back ⟨o, ho, hf o ho'⟩)).symm.trans ho, ho'⟩
  · rintro ⟨o, ho, ho'⟩
    exact ⟨o, a.same h o ho (hf o ho'), ho'⟩

/-- The collectable objects are the flagged ones and the others. -/
theorem length_collectable (t : Table) : t.collectable.length =
    t.countWith (.single .unreachable) + t.collectable.countP (!·.isUnreachable) := by
  have hflag : (fun o : Object => o.flags.contains (.single .unreachable)) = (·.isUnreachable) :=
    funext fun o => Flags.contains_single o.flags .unreachable
  rw [countWith, hflag]
  simpa using List.length_eq_countP_add_countP (·.isUnreachable) (l := t.collectable)

/-- Nulling leaves alone what stands alone. -/
theorem Drops.solitary_iff (d : t.Drops s t') : t'.Solitary g ↔ t.Solitary g := by
  cases ho : t.get? g with
  | none => simp [Solitary, ho, d.gone g ho]
  | some o =>
    obtain ⟨o', ho', -, hown, hflags⟩ := d.kept g o ho
    rw [solitary_of_get? ho, solitary_of_get? ho', Object.isSolitary_iff, Object.isSolitary_iff]
    simp only [Object.isUnreachable, Object.has, hown, hflags]

def isLoose (t : Table) (h : Handle) : Bool := (t.get? h).any (·.isLoose)

end Table

/-- Of the objects that belong to no cluster, seeding leaves the seeds not flagged. -/
theorem Object.isSolitary_seeded {o : Object} {keep : Flags} (hu : o.isUnreachable = false) :
    (o.seeded keep).isSolitary = (o.isLoose && o.isSeed keep) := by
  have hroot : (o.seeded keep).has .clusterRoot = o.has .clusterRoot :=
    has_seeded (by decide) (by decide) (by decide)
  rw [isSolitary, isLoose, isLoose, owner_seeded, hroot, isUnreachable_seeded hu]
  cases o.owner <;> cases o.has .clusterRoot <;> cases o.isSeed keep <;> rfl

namespace Collector

variable {c d : Collector} {keep : Flags} {seeds roots : List Handle} {t₀ t₁ t₂ : Table} {r : Stand}
  {cs₁ : Clusters} {cleared : Nat} {g : Handle} {stats : Statistics}

theorem Planted.solitary_iff (a : c.Planted keep seeds t₀) (hp : c.table.isPermanent g = false) :
    t₀.Solitary g ↔ g ∈ seeds ∧ c.table.isLoose g = true := by
  rw [a.chosen]
  cases ho : c.table.get? g with
  | none => simp [Table.Solitary, a.sown.gone g ho]
  | some o =>
    obtain ⟨o₀, ho₀, hsown⟩ := a.sown.kept g o ho
    rw [Table.solitary_of_get? ho₀, hsown.collectable hp, Object.isSolitary_seeded (a.fresh g o ho hp)]
    simp [Table.isLoose, ho, hp, and_comm]

theorem Planted.mem_loose (a : c.Planted keep seeds t₀) :
    g ∈ seeds.filter c.table.isLoose ↔ c.table.isPermanent g = false ∧ t₀.Solitary g := by
  rw [List.mem_filter]
  constructor
  · intro hg
    have hp := ((a.chosen g).mp hg.1).1
    exact ⟨hp, (a.solitary_iff hp).mpr hg⟩
  · rintro ⟨hp, hg⟩
    exact (a.solitary_iff hp).mp hg

/-- The seeds that belong to clusters. -/
theorem Planted.length_bound (a : c.Planted keep seeds t₀) (ht : c.table.Tidy) (hseeds : seeds.Nodup) :
    (seeds.filter fun h => !c.table.isLoose h).length =
      c.table.collectable.countP (·.isBoundSeed keep) := by
  refine ht.length_eq_countP (hseeds.filter _) fun h => ?_
  rw [List.mem_filter, a.chosen, and_assoc]
  refine and_congr_right fun hp => ?_
  cases ho : c.table.get? h with
  | none => simp
  | some o => simp [Table.isLoose, Object.isBoundSeed, ho, a.fresh h o ho hp, and_comm]

/-- A permanent object stays as it is while the dead are looked for, so it does not come to stand alone. -/
theorem Search.solitary_pooled (a : c.Search keep seeds t₀ r roots t₁ cs₁ cleared t₂)
    (hp : c.table.isPermanent g = true) (hg : t₁.Solitary g) : t₀.Solitary g := by
  obtain ⟨o₁, ho₁, hs⟩ := hg
  obtain ⟨o₀, ho₀, -, hsame⟩ := Table.Evolves.back a.retained.outlasts ho₁
  have he := hsame ((a.sown.isPermanent g).trans hp)
  exact ⟨o₀, ho₀, he ▸ hs⟩

/-- What stands alone in the end are the seeds outside clusters, and what has come to stand alone since. -/
theorem Search.length_alone (a : c.Search keep seeds t₀ r roots t₁ cs₁ cleared t₂) (ht : c.table.Tidy)
    (hseeds : seeds.Nodup) {more : List Handle} (hgains : t₀.Gains more t₁) :
    (seeds.filter c.table.isLoose ++ more).length = t₂.collectable.countP (·.isSolitary) := by
  have hperm : ∀ h, t₂.isPermanent h = c.table.isPermanent h := fun h =>
    (a.nulls.drops.isPermanent h).trans (a.thins.isPermanent h)
  have hnew : ∀ h, h ∈ more ↔ c.table.isPermanent h = false ∧ t₁.Solitary h ∧ ¬ t₀.Solitary h := by
    intro h
    rw [hgains.mem]
    refine ⟨fun hh => ⟨?_, hh⟩, (·.2)⟩
    cases hp : c.table.isPermanent h with
    | false => rfl
    | true => exact absurd (a.solitary_pooled hp hh.1) hh.2
  refine (a.nulls.drops.tidy (a.thins.tidy ht)).length_eq_countP ?_ fun h => ?_
  · refine List.nodup_append.mpr ⟨hseeds.filter _, hgains.distinct, ?_⟩
    rintro h hh _ hh' rfl
    exact ((hnew h).mp hh').2.2 (a.mem_loose.mp hh).2
  · rw [List.mem_append, a.mem_loose, hnew, hperm, ← and_or_left]
    refine and_congr_right fun _ => Iff.trans ?_ a.nulls.drops.solitary_iff.symm
    constructor
    · rintro (hh | ⟨hh, -⟩)
      · exact hgains.keeps h hh
      · exact hh
    · intro hh
      by_cases h₀ : t₀.Solitary h
      · exact .inl h₀
      · exact .inr ⟨hh, h₀⟩

/-- A search counts the objects that end up standing alone and not flagged, and before them the seeds
that are members or roots of clusters. -/
theorem Search.scanned (a : c.Search keep seeds t₀ r roots t₁ cs₁ cleared t₂) (hc : c.Sound)
    (run : MarksRounds c.schema c.settings.memberKeepsCluster seeds ⟨t₀, c.clusters, .empty, 0⟩ r)
    (hseeds : seeds.Nodup) (hroots : roots.Nodup) :
    r.tally.scanned = t₂.collectable.countP (·.isSolitary) +
      c.table.collectable.countP (·.isBoundSeed keep) := by
  have ht := hc.settled.orderly.tidy
  obtain ⟨⟨more, hmark, hscanned⟩, -⟩ := run.counted a.tracing
  have hgains : t₀.Gains more t₁ := by
    simpa using hmark.trans (a.scattered.gains a.rounded.tracing hroots a.dead)
  have halone := a.length_alone ht hseeds hgains
  have hbound := a.toPlanted.length_bound ht hseeds
  have hsplit := List.length_eq_length_filter_add (l := seeds) c.table.isLoose
  have hstart : Tally.empty.scanned = 0 := rfl
  rw [List.length_append] at halone
  dsimp only at hscanned
  omega

/-- What the numbers stand for that a collection with these keep flags reports. -/
structure Sums (c : Collector) (keep : Flags) (stats : Statistics) (d : Collector) : Prop where
  /-- Considered is what no earlier collection has condemned. -/
  considered : stats.considered = c.table.collectable.countP (!·.isUnreachable)
  /-- What is not found unreachable is left not flagged. -/
  unreachable : stats.considered = stats.unreachable + d.table.collectable.countP (!·.isUnreachable)
  /-- Each cluster broken up is a cluster less. -/
  dissolved : stats.dissolved + d.clusters.size = c.clusters.size
  /-- What stands alone in the end is scanned once, and what is a seed in a cluster once before. -/
  scanned : stats.scanned = d.table.collectable.countP (·.isSolitary) +
    c.table.collectable.countP (·.isBoundSeed keep)

/-- The considered objects are all the collectable ones. -/
theorem considered_of_seed {t t' : Table} {n : Nat} (hok : seed keep t = .ok (seeds, n, t')) :
    n = t.collectable.length := by
  unfold seed at hok
  obtain ⟨found, -, hok⟩ := except_bind_ok hok
  cases hok
  exact List.length_map _

/-- What a search for the dead reports. -/
theorem sums_of_condemn (hc : c.Sound) (hok : c.condemn keep = .ok (stats, d)) :
    c.Sums keep stats d := by
  obtain ⟨hfinds, -⟩ := finds_of_condemn hok
  have ht := hc.settled.orderly.tidy
  generalize hv : d.table = v at hfinds
  generalize hks : d.clusters = ks at hfinds
  cases hfinds with
  | @intro _ _ _ roots _ _ _ _ _ r _ _ _ _ _ seeded marked order scattered weak swept =>
    have a := Finds.search hc seeded marked order scattered weak swept
    have hcount := considered_of_seed seeded
    have hroots := (Clusters.dead_of_filter a.rounded.tracing.orderly
      (fun _ _ hu => hu) order).1
    obtain ⟨-, hsize⟩ := marked.counted a.tracing
    have hsize' := a.scattered.size_add a.rounded.tracing.orderly hroots a.dead
    have hfresh : c.table.collectable.countP (!·.isUnreachable) = c.table.collectable.length := by
      refine List.countP_eq_length.mpr fun o hm => ?_
      obtain ⟨ho, hp⟩ := ht.mem_collectable.mp hm
      simp [a.fresh _ o ho hp]
    have hlen : v.collectable.length = c.table.collectable.length :=
      (Table.Evolves.length_collectable a.nulls.drops (a.thins.tidy ht)).trans
        (a.thins.length_collectable ht)
    refine ⟨hcount.trans hfresh.symm, ?_, ?_, ?_⟩
    · rw [hv, ← Table.length_collectable, hlen]
      exact hcount
    · rw [hks]
      dsimp only at hsize hsize' ⊢
      omega
    · rw [hv]
      exact a.scanned hc marked (seed_nodup ht seeded) hroots

/-- What a collection reports: the purge that was pending takes nothing away that would have been counted,
and neither does the purge that may follow. -/
theorem sums_of_collect (hc : c.Sound) (hs : c.Standing) {full : Bool}
    (hok : c.collect keep full = .ok (stats, d)) : c.Sums keep stats d := by
  obtain ⟨n, b, hfinish, found, m, hcondemn, freed, e, hfreed, hstats, rfl⟩ := collect_ok hok
  obtain ⟨hfirst, hb⟩ := hs.first_phase hc hfinish
  have hm := (hb.sound.condemned hcondemn).1
  have hlast := last_phase hm hfreed
  have a := sums_of_condemn hb.sound hcondemn
  have ht := hc.settled.orderly.tidy
  have hm' := hm.settled.orderly.tidy
  have hawake : ∀ o : Object, (!o.isUnreachable) = true → o.isUnreachable = false := by simp
  have hseed : ∀ o : Object, o.isBoundSeed keep = true → o.isUnreachable = false := fun o ho => by
    simp only [Object.isBoundSeed, Bool.and_eq_true, Bool.not_eq_true'] at ho
    exact ho.1.1
  rw [hstats]
  refine ⟨?_, ?_, ?_, ?_⟩
  · exact a.considered.trans (hfirst.spares.countP_eq ht hawake)
  · exact a.unreachable.trans (congrArg _ (hlast.spares.countP_eq hm' hawake).symm)
  · rw [← hfirst.clusters]
    exact (congrArg (fun cs : Clusters => found.dissolved + cs.size) hlast.clusters).trans a.dissolved
  · have halone := hlast.spares.countP_eq hm' fun o ho => (Object.isSolitary_iff.mp ho).2.2
    exact a.scanned.trans (congrArg₂ (· + ·) halone.symm (hfirst.spares.countP_eq ht hseed))

end Collector

/-- What the numbers stand for that a collection reports: the objects it considers, those it leaves not
flagged, the clusters that are gone, and the objects it scans. Each object that stands alone in the end
and is not flagged is scanned once. A seed that is the member or the root of a cluster is scanned as a seed,
so it is scanned twice if it outlives its cluster. -/
theorem Reached.statistics_sum {c d : Collector} (hr : Reached c) {op : Operation} {keep : Flags}
    {full : Bool} (hop : op = .collect keep full ∨ op = .tryCollect keep full) {stats : Statistics}
    (hok : c.perform op = .ok (.collected stats, d)) : c.Sums keep stats d := by
  rcases Collector.collect_of_perform hop hok with ⟨_, lock, misses, he, hcollect⟩ | he | he
  · cases he
    have a := Collector.sums_of_collect (c := c.relocked lock misses)
      (hr.sound.relocked lock misses) hr.standing hcollect
    exact ⟨a.considered, a.unreachable, a.dissolved, a.scanned⟩
  all_goals cases he

open Collector Sample in
/-- The member of a cluster is a root and outlives its cluster, whose root dies; another root keeps what it
refers to. Three objects are left, and four scans are reported. -/
theorem statistics_sum_outlived : ∃ (c d : Collector) (stats : Statistics), Reached c ∧
    c.perform (.collect .empty true) = .ok (.collected stats, d) ∧
    d.table.collectable.countP (·.isSolitary) = 3 ∧
    c.table.collectable.countP (·.isBoundSeed .empty) = 1 ∧ stats.unreachable = 1 ∧
    stats.considered = 4 ∧ stats.scanned = 4 ∧ c.Sums .empty stats d := by
  have hrun : runs .serial node (nodes 4 ++ [.formCluster one [two], .addRoot two, .addRoot three,
      .setReference three 0 (some four)]) (fun c => !c.isHeld &&
        c.table.collectable.countP (·.isBoundSeed .empty) == 1 &&
        c.table.collectable.countP (!·.isUnreachable) == 4 &&
        c.leaves .empty true fun d => d.table.collectable.countP (·.isSolitary) == 3 &&
          d.table.collectable.countP (!·.isUnreachable) == 3) = true := by
    decide +kernel
  obtain ⟨c, hr, hc⟩ := Reached.of_runs node_honest (by decide +kernel) hrun
  obtain ⟨hbefore, hleaves⟩ := Bool.and_eq_true_iff.mp hc
  obtain ⟨stats, d, hcollect, hd⟩ := collect_of_leaves hleaves
  simp only [Bool.and_eq_true, Bool.not_eq_true', beq_iff_eq] at hbefore hd
  obtain ⟨⟨hheld, hbound⟩, hthere⟩ := hbefore
  obtain ⟨halone, hleft⟩ := hd
  have hok : c.perform (.collect .empty true) = .ok (.collected stats, d) :=
    perform_collect hheld hcollect
  have a := hr.statistics_sum (.inl rfl) hok
  have hconsidered := a.considered
  have hunreachable := a.unreachable
  have hscanned := a.scanned
  exact ⟨c, d, stats, hr, hok, halone, hbound, by omega, by omega, by omega, a⟩

open Collector Sample in
/-- Two members of a cluster are roots, and nothing keeps the root of the cluster. Of three objects, four
scans are reported: the members are counted as seeds, and again when they are walked. -/
theorem scanned_exceeds_considered : ∃ (c d : Collector) (stats : Statistics), Reached c ∧
    c.perform (.collect .empty false) = .ok (.collected stats, d) ∧
    c.table.collectable.length = 3 ∧ stats.considered = 3 ∧ stats.scanned = 4 := by
  have hrun : runs .serial node (nodes 3 ++ [.formCluster one [two, three], .addRoot two,
      .addRoot three]) (fun c => !c.isHeld && c.table.collectable.length == 3 &&
        (c.collect .empty false).toOption.any fun found =>
          found.1.considered == 3 && found.1.scanned == 4) = true := by
    decide +kernel
  obtain ⟨c, hr, hc⟩ := Reached.of_runs node_honest (by decide +kernel) hrun
  obtain ⟨hbefore, hafter⟩ := Bool.and_eq_true_iff.mp hc
  obtain ⟨⟨stats, d⟩, hcollect, hstats⟩ := except_of_toOption_any hafter
  simp only [Bool.and_eq_true, Bool.not_eq_true', beq_iff_eq] at hbefore hstats
  have hok : c.perform (.collect .empty false) = .ok (.collected stats, d) :=
    perform_collect hbefore.1 hcollect
  exact ⟨c, d, stats, hr, hok, hbefore.2, hstats.1, hstats.2⟩

end TracingHeap
