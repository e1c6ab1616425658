import TracingHeap.Proofs.Cluster.Enrollment

namespace TracingHeap

namespace Object

structure Advances (s : Schema) (dead : Handle → Prop) (o o' : Object) : Prop
    extends o.Thins s dead o' where
  owner : o'.owner = o.owner
  flag : ∀ f, f ≠ .unreachable → f ≠ .reachableInCluster → f ≠ .noStrongReference →
    o'.has f = o.has f
  unreachable : o'.isUnreachable = true → o.isUnreachable = true
  inCluster : o.has .reachableInCluster = true → o'.has .reachableInCluster = true

namespace Advances

variable {s : Schema} {dead : Handle → Prop} {o p q : Object}

theorem refl (o : Object) : o.Advances s dead o :=
  ⟨.refl o, rfl, fun _ _ _ _ => rfl, id, id⟩

theorem trans {dead' : Handle → Prop} (h : o.Advances s dead p) (h' : p.Advances s dead' q)
    (hd : ∀ g, dead' g → dead g) : o.Advances s dead q :=
  ⟨h.toThins.trans h'.toThins hd, h'.owner.trans h.owner,
    fun f h1 h2 h3 => (h'.flag f h1 h2 h3).trans (h.flag f h1 h2 h3),
    fun hu => h.unreachable (h'.unreachable hu), fun hr => h'.inCluster (h.inCluster hr)⟩

theorem awake (h : o.Advances s dead p) (hu : o.isUnreachable = false) :
    p.isUnreachable = false := by
  cases hp : p.isUnreachable with
  | false => rfl
  | true => rw [h.unreachable hp] at hu; cases hu

/-- Clearing a flag that says an object was not reached. -/
theorem clearFlag (o : Object) {f : Flag} (hf : f = .unreachable ∨ f = .noStrongReference) :
    o.Advances s dead (o.clear f) := by
  refine ⟨.of_cells ⟨rfl, rfl, rfl⟩ rfl, rfl, ?_, ?_, ?_⟩
  · intro g h1 _ h3
    rcases hf with rfl | rfl
    · simp [Ne.symm h1]
    · simp [Ne.symm h3]
  · intro hu
    simp only [isUnreachable, has_clear, Bool.and_eq_true] at hu ⊢
    exact hu.1
  · intro hr
    rcases hf with rfl | rfl <;> simpa using hr

theorem setInCluster (o : Object) : o.Advances s dead (o.set .reachableInCluster) := by
  refine ⟨.of_cells ⟨rfl, rfl, rfl⟩ rfl, rfl, ?_, ?_, ?_⟩
  · intro g _ h2 _
    simp [Ne.symm h2]
  · intro hu
    simpa [isUnreachable] using hu
  · intro _
    simp

end Advances

end Object

namespace Table

def Advances (s : Schema) (t t' : Table) : Prop :=
  Evolves (fun h o o' => o.Advances s (fun g => t.has g .pendingKill = true) o' ∧
    (t.isPermanent h = true → o' = o)) t t'

/-- An object whose fate does not hang on a cluster, and which has been claimed. -/
def Free (t : Table) (h : Handle) : Prop :=
  ∃ o, t.get? h = some o ∧ o.owner = none ∧ o.isUnreachable = false

/-- An object that has been claimed: a standalone object or a root is not flagged unreachable, and
a member is flagged as referenced from outside. Permanent objects need no claim. -/
def Marked (t : Table) (h : Handle) : Prop :=
  t.isPermanent h = true ∨ t.Free h ∨
    ∃ o, t.get? h = some o ∧ o.owner ≠ none ∧ o.has .reachableInCluster = true

/-- An object that is not flagged, and is no member still to be flagged, has been claimed. -/
theorem marked_of_unclaimed {t : Table} {h : Handle} {o : Object} (ho : t.get? h = some o)
    (hu : o.isUnreachable = false)
    (hm : ¬ (o.owner.isSome && !o.has .reachableInCluster) = true) : t.Marked h := by
  cases hown : o.owner with
  | none => exact .inr (.inl ⟨o, ho, hown, hu⟩)
  | some r => exact .inr (.inr ⟨o, ho, by simp [hown], by simpa [hown] using hm⟩)

namespace Advances

variable {s : Schema} {t t' t'' : Table} {h : Handle} {o o' : Object}

theorem kept (a : t.Advances s t') (ho : t.get? h = some o) : ∃ o', t'.get? h = some o' ∧
    o.Advances s (fun g => t.has g .pendingKill = true) o' := by
  obtain ⟨o', ho', hr, -⟩ := Evolves.kept a h o ho
  exact ⟨o', ho', hr⟩

theorem refl (t : Table) : t.Advances s t := Evolves.refl fun _ o _ => ⟨.refl o, fun _ => rfl⟩

theorem has (a : t.Advances s t') {f : Flag} (h1 : f ≠ .unreachable)
    (h2 : f ≠ .reachableInCluster) (h3 : f ≠ .noStrongReference) (g : Handle) :
    t'.has g f = t.has g f :=
  Evolves.has_eq a (fun _ _ _ _ hr => hr.1.flag f h1 h2 h3) g

theorem trans (a : t.Advances s t') (b : t'.Advances s t'') : t.Advances s t'' := by
  refine Evolves.trans a b fun h o p q _ hp hq => ⟨hp.1.trans hq.1 ?_, fun hperm => ?_⟩
  · intro g hg
    rwa [a.has (by decide) (by decide) (by decide)] at hg
  · rw [hq.2 ((a.isPermanent h).trans hperm), hp.2 hperm]

/-- A change of one collectable object. -/
theorem modify {g : Handle} (hg : t.isPermanent g = false) {f : Object → Object}
    (hf : ∀ o, (f o).handle = o.handle)
    (hadv : ∀ o, t.get? g = some o → o.Advances s (fun g => t.has g .pendingKill = true) (f o)) :
    t.Advances s (t.modify g f) := by
  refine Evolves.modify hf (fun o ho => ⟨hadv o ho, fun hp => ?_⟩)
    fun h o _ _ => ⟨.refl o, fun _ => rfl⟩
  rw [hg] at hp
  cases hp

theorem awake (a : t.Advances s t') (hw : t.Awake h) : t'.Awake h := by
  obtain ⟨o, ho, hu⟩ := hw
  obtain ⟨o', ho', hr⟩ := a.kept ho
  exact ⟨o', ho', hr.awake hu⟩

theorem free (a : t.Advances s t') (hf : t.Free h) : t'.Free h := by
  obtain ⟨o, ho, hn, hu⟩ := hf
  obtain ⟨o', ho', hr⟩ := a.kept ho
  exact ⟨o', ho', hr.owner.trans hn, hr.awake hu⟩

theorem marked (a : t.Advances s t') (hm : t.Marked h) : t'.Marked h := by
  rcases hm with hp | hf | ⟨o, ho, hn, hr⟩
  · exact .inl ((a.isPermanent h).trans hp)
  · exact .inr (.inl (a.free hf))
  · obtain ⟨o', ho', hadv⟩ := a.kept ho
    exact .inr (.inr ⟨o', ho', by rw [hadv.owner]; exact hn, hadv.inCluster hr⟩)

theorem rootOf (a : t.Advances s t') (h : Handle) : t'.rootOf h = t.rootOf h :=
  rootOf_evolves a (fun _ _ _ _ hr => hr.1.owner)
    (fun _ _ _ _ hr => hr.1.flag _ (by decide) (by decide) (by decide)) h

theorem orderly (a : t.Advances s t') {cs : Clusters} (ho : Orderly s t cs) : Orderly s t' cs := by
  refine ho.evolves a (fun _ _ _ hr => hr.1.toThins) (fun _ _ _ _ hr => hr.1.owner)
    (fun _ _ _ _ hr => hr.1.flag _ (by decide) (by decide) (by decide))
    (fun _ _ _ _ hr _ hu => hr.1.awake hu) ?_
  intro h o o' _ hr hk
  rw [hr.1.flag .rootSet (by decide) (by decide) (by decide),
    hr.1.flag .pendingKill (by decide) (by decide) (by decide)]
  exact hk

theorem edge_back (a : t.Advances s t') {cs : Clusters} (ho : Orderly s t cs) {k : Strength}
    {g : Handle} (he : Edge s t' h k g) : Edge s t h k g :=
  he.back ho.regular ho.fits a fun _ _ _ hr => hr.1.toThins

end Advances

theorem Free.marked {t : Table} {h : Handle} (hf : t.Free h) : t.Marked h := .inr (.inl hf)

/-- A marked object outside the pool that belongs to no cluster, or is a root, has been claimed. -/
theorem Marked.free {t : Table} {h : Handle} {o : Object} (hm : t.Marked h)
    (hp : t.isPermanent h = false) (ho : t.get? h = some o) (hn : o.owner = none) : t.Free h := by
  rcases hm with hm | hf | ⟨q, hq, hown, -⟩
  · rw [hp] at hm
    cases hm
  · exact hf
  · rw [ho] at hq
    cases hq
    exact absurd hn hown

/-- A marked member outside the pool is flagged as referenced from outside. -/
theorem Marked.inCluster {t : Table} {h : Handle} {o : Object} (hm : t.Marked h)
    (hp : t.isPermanent h = false) (ho : t.get? h = some o) (hown : o.owner ≠ none) :
    o.has .reachableInCluster = true := by
  rcases hm with hm | ⟨q, hq, hn, -⟩ | ⟨q, hq, -, hr⟩
  · rw [hp] at hm
    cases hm
  · rw [ho] at hq
    cases hq
    exact absurd hn hown
  · rw [ho] at hq
    cases hq
    exact hr

theorem Free.awake {t : Table} {h : Handle} (hf : t.Free h) : t.Awake h := by
  obtain ⟨o, ho, -, hu⟩ := hf
  exact ⟨o, ho, hu⟩

end Table

/-- A reference of a standalone object has been followed: a strong one has claimed its target, and
a weak one leads to a target that will stay, or is written down to be looked at again. -/
def Followed (t : Table) (weak : Site → Prop) (site : Site) (g : Handle) : Strength → Prop
  | .strong => t.Marked g
  | .weak => t.isPermanent g = true ∨ t.Free g ∨ weak site

/-- A slot that has been looked at may name the object: it is not one that was killed, unless the pool
has it. -/
def Table.Tenable (t : Table) (g : Handle) : Prop :=
  t.isPermanent g = true ∨ t.has g .pendingKill = false

/-- A claimed object is done with. The references of a standalone object have been followed, or are
gone; a root has claimed what its cluster keeps. -/
structure Traced (s : Schema) (cs : Clusters) (weak : Site → Prop) (t : Table) (h : Handle) :
    Prop where
  seen : ∀ o a k g, t.get? h = some o → o.has .clusterRoot = false → s.Reports o a k →
    o.slot? a = some (some g) → Followed t weak ⟨h, a⟩ g k ∧ t.Tenable g
  expanded : ∀ c ∈ cs.list, c.root = h →
    (∀ m ∈ c.mutables, t.Marked m) ∧ ∀ r ∈ c.referenced, t.Free r

theorem Table.Tenable.advance {s : Schema} {t t' : Table} {g : Handle} (hg : t.Tenable g)
    (a : t.Advances s t') : t'.Tenable g := by
  refine hg.imp (fun hp => (a.isPermanent g).trans hp) fun hk => ?_
  rw [a.has (by decide) (by decide) (by decide)]
  exact hk

theorem Followed.advance {s : Schema} {t t' : Table} {weak weak' : Site → Prop} {site : Site}
    {g : Handle} {k : Strength} (hf : Followed t weak site g k) (a : t.Advances s t')
    (hw : ∀ x, weak x → weak' x) : Followed t' weak' site g k := by
  cases k with
  | strong => exact a.marked hf
  | weak =>
    rcases hf with hp | hf | hs
    · exact .inl ((a.isPermanent g).trans hp)
    · exact .inr (.inl (a.free hf))
    · exact .inr (.inr (hw site hs))

theorem Traced.advance {s : Schema} {cs : Clusters} {t t' : Table} {weak weak' : Site → Prop}
    {h : Handle} (ht : Traced s cs weak t h) (ho : Orderly s t cs) (a : t.Advances s t')
    (hw : ∀ x, weak x → weak' x) : Traced s cs weak' t' h := by
  constructor
  · intro o' b k g ho' hroot hrep hslot
    obtain ⟨o, hget, hr, -⟩ := Table.Evolves.back a ho'
    have hslot' := hr.slot_back hslot
    have hrep' := hr.reports_back ho.regular (ho.fits h o hget) hrep hslot
    rw [hr.flag .clusterRoot (by decide) (by decide) (by decide)] at hroot
    obtain ⟨hfollowed, hten⟩ := ht.seen o b k g hget hroot hrep' hslot'
    exact ⟨hfollowed.advance a hw, hten.advance a⟩
  · intro c hc hroot
    obtain ⟨hm, hr⟩ := ht.expanded c hc hroot
    exact ⟨fun m hmem => a.marked (hm m hmem), fun r hmem => a.free (hr r hmem)⟩

/-- The set is closed under the ways in which one object keeps another: a strong reference of a
standalone object to an object that is not killed, any strong reference of a clustered one, the
company of a cluster, and what a root knows of. -/
structure Closed (s : Schema) (t : Table) (cs : Clusters) (good : Handle → Prop) : Prop where
  strong : ∀ h g, good h → t.isPermanent h = false → Edge s t h .strong g →
    t.isPermanent g = false → (t.has g .pendingKill = false ∨ t.rootOf h ≠ none) → good g
  peers : ∀ c ∈ cs.list, t.isPermanent c.root = false → ∀ h ∈ c.objects, good h →
    ∀ g ∈ c.objects, good g
  mutables : ∀ c ∈ cs.list, t.isPermanent c.root = false → good c.root →
    ∀ m ∈ c.mutables, t.isPermanent m = false → good m
  referenced : ∀ c ∈ cs.list, t.isPermanent c.root = false → good c.root →
    ∀ r ∈ c.referenced, t.isPermanent r = false → good r

theorem Closed.all {s : Schema} {t : Table} {cs : Clusters} : Closed s t cs fun _ => True :=
  ⟨fun _ _ _ _ _ _ _ => trivial, fun _ _ _ _ _ _ _ _ => trivial, fun _ _ _ _ _ _ _ => trivial,
    fun _ _ _ _ _ _ _ => trivial⟩

theorem Closed.evolves {s : Schema} {t t' : Table} {cs : Clusters} {good : Handle → Prop}
    (hc : Closed s t cs good) {R : Handle → Object → Object → Prop} (ev : t.Evolves R t')
    (hedge : ∀ h k g, Edge s t' h k g → Edge s t h k g)
    (hkill : ∀ g, t'.has g .pendingKill = t.has g .pendingKill)
    (hroot : ∀ h, t'.rootOf h = t.rootOf h) : Closed s t' cs good := by
  refine ⟨?_, ?_, ?_, ?_⟩
  · intro h g hg hp he hpg hk
    rw [ev.isPermanent] at hp hpg
    rw [hroot, hkill] at hk
    exact hc.strong h g hg hp (hedge h .strong g he) hpg hk
  · intro c hmem hp
    rw [ev.isPermanent] at hp
    exact hc.peers c hmem hp
  · intro c hmem hp hg m hm hpm
    rw [ev.isPermanent] at hp hpm
    exact hc.mutables c hmem hp hg m hm hpm
  · intro c hmem hp hg r hr hpr
    rw [ev.isPermanent] at hp hpr
    exact hc.referenced c hmem hp hg r hr hpr

theorem Closed.advance {s : Schema} {t t' : Table} {cs : Clusters} {good : Handle → Prop}
    (hc : Closed s t cs good) (ho : Orderly s t cs) (a : t.Advances s t') :
    Closed s t' cs good :=
  hc.evolves a (fun _ _ _ he => a.edge_back ho he)
    (fun g => a.has (by decide) (by decide) (by decide) g) a.rootOf

/-- The invariant of a trace. `gray` tells the objects that wait to be looked at, `weak` the slots
written down so far, and `good` bounds what may be claimed. -/
structure Tracing (s : Schema) (cs : Clusters) (keeping : Bool) (good gray : Handle → Prop)
    (weak : Site → Prop) (t : Table) : Prop where
  orderly : Orderly s t cs
  closed : Closed s t cs good
  linked : ∀ h k g, Edge s t h k g → (t.isPermanent h = false ∨ k = .weak ∧ t.Awake h) →
    (∃ o, t.get? g = some o) ∧ (t.isPermanent g = true → t.Awake g)
  pool : ∀ c ∈ cs.list, t.isPermanent c.root = true → t.Awake c.root
  queued : ∀ h, gray h → t.isPermanent h = false ∧ good h ∧
    ∃ o, t.get? h = some o ∧ (o.owner = none → o.isUnreachable = false)
  traced : ∀ h, t.isPermanent h = false → t.Free h → gray h ∨ Traced s cs weak t h
  within : ∀ h, t.isPermanent h = false → t.Marked h → good h
  held : keeping = true → ∀ h o r, t.isPermanent h = false → t.get? h = some o →
    o.owner = some r → o.has .reachableInCluster = true → t.Awake r

namespace Tracing

variable {s : Schema} {cs : Clusters} {keeping : Bool} {good gray gray' : Handle → Prop}
  {weak weak' : Site → Prop} {t t' : Table}

/-- The invariant survives a step that claims objects of the good set, if the objects freshly
claimed wait to be looked at. -/
theorem advance (p : Tracing s cs keeping good gray weak t) (a : t.Advances s t')
    (hweak : ∀ x, weak x → weak' x) (hgray : ∀ h, gray h → gray' h)
    (hnew : ∀ h o, t.get? h = some o → t.isPermanent h = false → o.owner = none →
      o.isUnreachable = true → t'.Free h → gray' h ∧ good h)
    (hmember : ∀ h o o' r, t.get? h = some o → t'.get? h = some o' → t.isPermanent h = false →
      o.owner = some r → o.has .reachableInCluster = false →
      o'.has .reachableInCluster = true → good h ∧ (keeping = true → t'.Awake r))
    (hqueue : ∀ h, gray' h → gray h ∨ t.isPermanent h = false ∧ good h ∧
      ∃ o, t'.get? h = some o ∧ (o.owner = none → o.isUnreachable = false)) :
    Tracing s cs keeping good gray' weak' t' := by
  refine ⟨a.orderly p.orderly, p.closed.advance p.orderly a, ?_, ?_, ?_, ?_, ?_, ?_⟩
  · intro h k g he hheed
    have hheed' : t.isPermanent h = false ∨ k = .weak ∧ t.Awake h := by
      cases hp : t.isPermanent h with
      | false => exact .inl rfl
      | true =>
        rcases hheed with hh | ⟨hk, o', ho', hu⟩
        · rw [a.isPermanent, hp] at hh
          cases hh
        · obtain ⟨o, ho, -, hsame⟩ := Table.Evolves.back a ho'
          exact .inr ⟨hk, o, ho, hsame hp ▸ hu⟩
    obtain ⟨⟨o, ho⟩, hawake⟩ := p.linked h k g (a.edge_back p.orderly he) hheed'
    obtain ⟨o', ho', -⟩ := a.kept ho
    refine ⟨⟨o', ho'⟩, fun hp => ?_⟩
    rw [a.isPermanent] at hp
    exact a.awake (hawake hp)
  · intro c hc hp
    rw [a.isPermanent] at hp
    exact a.awake (p.pool c hc hp)
  · intro h hg
    rw [a.isPermanent]
    rcases hqueue h hg with hold | hnewq
    · obtain ⟨hp, hgood, o, ho, hu⟩ := p.queued h hold
      obtain ⟨o', ho', hr⟩ := a.kept ho
      exact ⟨hp, hgood, o', ho', fun hn => hr.awake (hu (hr.owner.symm.trans hn))⟩
    · exact hnewq
  · intro h hp hf
    rw [a.isPermanent] at hp
    obtain ⟨o', ho', hn, hu⟩ := hf
    obtain ⟨o, ho, hr, -⟩ := Table.Evolves.back a ho'
    cases hold : o.isUnreachable with
    | true =>
      exact .inl (hnew h o ho hp (hr.owner.symm.trans hn) hold ⟨o', ho', hn, hu⟩).1
    | false =>
      rcases p.traced h hp ⟨o, ho, hr.owner.symm.trans hn, hold⟩ with hg | ht
      · exact .inl (hgray h hg)
      · exact .inr (ht.advance p.orderly a hweak)
  · intro h hp hm
    rw [a.isPermanent] at hp
    rcases hm with hm | ⟨o', ho', hn, hu⟩ | ⟨o', ho', hn, hr'⟩
    · rw [a.isPermanent, hp] at hm
      cases hm
    · obtain ⟨o, ho, hr, -⟩ := Table.Evolves.back a ho'
      cases hold : o.isUnreachable with
      | true =>
        exact (hnew h o ho hp (hr.owner.symm.trans hn) hold ⟨o', ho', hn, hu⟩).2
      | false => exact p.within h hp (.inr (.inl ⟨o, ho, hr.owner.symm.trans hn, hold⟩))
    · obtain ⟨o, ho, hr, -⟩ := Table.Evolves.back a ho'
      rw [hr.owner] at hn
      cases hold : o.has .reachableInCluster with
      | true => exact p.within h hp (.inr (.inr ⟨o, ho, hn, hold⟩))
      | false =>
        obtain ⟨r, hown⟩ := Option.ne_none_iff_exists'.mp hn
        exact (hmember h o o' r ho ho' hp hown hold hr').1
  · intro hk h o' r hp ho' hown hr'
    rw [a.isPermanent] at hp
    obtain ⟨o, ho, hr, -⟩ := Table.Evolves.back a ho'
    rw [hr.owner] at hown
    cases hold : o.has .reachableInCluster with
    | true => exact a.awake (p.held hk h o r hp ho hown hold)
    | false => exact (hmember h o o' r ho ho' hp hown hold hr').2 hk

/-- Objects that are done with, or whose fate hangs on a cluster, need not wait any longer. -/
theorem finish (p : Tracing s cs keeping good gray weak t) (hsub : ∀ h, gray' h → gray h)
    (hdone : ∀ h, gray h → gray' h ∨ (t.Free h → Traced s cs weak t h)) :
    Tracing s cs keeping good gray' weak t := by
  refine ⟨p.orderly, p.closed, p.linked, p.pool, fun h hg => p.queued h (hsub h hg), ?_, p.within,
    p.held⟩
  intro h hp hf
  rcases p.traced h hp hf with hg | ht
  · exact (hdone h hg).imp_right fun hd => hd hf
  · exact .inr ht

theorem congr (p : Tracing s cs keeping good gray weak t) (hg : ∀ h, gray h ↔ gray' h) :
    Tracing s cs keeping good gray' weak t :=
  p.finish (fun h hm => (hg h).mpr hm) fun h hm => .inl ((hg h).mp hm)

/-- A step that changes nothing but slots and other flags keeps the invariant. -/
theorem quiet (p : Tracing s cs keeping good gray weak t) (a : t.Advances s t')
    (hflag : ∀ h o o', t.get? h = some o → t'.get? h = some o' →
      o'.isUnreachable = o.isUnreachable ∧
        o'.has .reachableInCluster = o.has .reachableInCluster) :
    Tracing s cs keeping good gray weak t' := by
  refine p.advance a (fun _ h => h) (fun _ h => h) ?_ ?_ fun _ h => .inl h
  · rintro h o ho _ _ hu ⟨o', ho', -, hu'⟩
    rw [(hflag h o o' ho ho').1, hu] at hu'
    cases hu'
  · intro h o o' r ho ho' _ _ hr hr'
    rw [(hflag h o o' ho ho').2, hr] at hr'
    cases hr'

/-- More slots may be written down. -/
theorem remember (p : Tracing s cs keeping good gray weak t) (hweak : ∀ x, weak x → weak' x) :
    Tracing s cs keeping good gray weak' t := by
  refine ⟨p.orderly, p.closed, p.linked, p.pool, p.queued, ?_, p.within, p.held⟩
  intro h hp hf
  exact (p.traced h hp hf).imp_right fun ht => ht.advance p.orderly (.refl t) hweak

/-- Members are never flagged unreachable, so what is flagged has no owner. -/
theorem owner_eq_none (p : Tracing s cs keeping good gray weak t) {h : Handle} {o : Object}
    (ho : t.get? h = some o) (hu : o.isUnreachable = true) : o.owner = none := by
  cases hown : o.owner with
  | none => rfl
  | some r =>
    obtain ⟨c, hc, -, hm⟩ := p.orderly.enrolled.listed h o r ho hown
    obtain ⟨o', ho', -, hu'⟩ := p.orderly.enrolled.member c hc h hm
    rw [ho] at ho'
    cases ho'
    rw [hu] at hu'
    cases hu'

/-- A registered root that waits to be looked at has been claimed. -/
theorem free_of_queued (p : Tracing s cs keeping good gray weak t) {c : Cluster}
    (hc : c ∈ cs.list) (hg : gray c.root) : t.Free c.root := by
  obtain ⟨-, -, o, ho, hu⟩ := p.queued _ hg
  obtain ⟨o', ho', -, hn⟩ := p.orderly.enrolled.root c hc
  rw [ho] at ho'
  cases ho'
  exact ⟨o, ho, hn, hu hn⟩

/-- A free-standing object of the good set is claimed, and waits to be looked at. -/
theorem claim (p : Tracing s cs keeping good gray weak t) (a : t.Advances s t')
    (hweak : ∀ x, weak x → weak' x) {h : Handle} (hp : t.isPermanent h = false) (hg : good h)
    (hf : t'.Free h)
    (hother : ∀ g o o', t.get? g = some o → t'.get? g = some o' →
      (g ≠ h → o'.isUnreachable = o.isUnreachable) ∧
        o'.has .reachableInCluster = o.has .reachableInCluster) :
    Tracing s cs keeping good (fun x => x = h ∨ gray x) weak' t' := by
  refine p.advance a hweak (fun x hx => .inr hx) ?_ ?_ ?_
  · rintro g o ho hpg hn hu ⟨o', ho', hn', hu'⟩
    by_cases he : g = h
    · subst he
      exact ⟨.inl rfl, hg⟩
    · rw [(hother g o o' ho ho').1 he, hu] at hu'
      cases hu'
  · intro g o o' r ho ho' _ _ hr hr'
    rw [(hother g o o' ho ho').2, hr] at hr'
    cases hr'
  · rintro g (rfl | hgray)
    · obtain ⟨o', ho', -, hu'⟩ := hf
      exact .inr ⟨hp, hg, o', ho', fun _ => hu'⟩
    · exact .inl hgray

end Tracing

end TracingHeap
