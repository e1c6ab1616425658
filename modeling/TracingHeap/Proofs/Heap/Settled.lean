import TracingHeap.Proofs.Cluster.Enrollment

namespace TracingHeap

/-- What holds between two calls. Strong references of permanent objects are not heeded: nothing
follows them, and nothing nulls them. -/
structure Settled (s : Schema) (t : Table) (cs : Clusters) : Prop where
  orderly : Orderly s t cs
  roots : ∀ c ∈ cs.list, t.Awake c.root
  mutables : ∀ c ∈ cs.list, t.isPermanent c.root = false → ∀ m ∈ c.mutables, t.Awake m
  linked : ∀ h k g, Edge s t h k g → t.Awake h → (k = .weak ∨ t.isPermanent h = false) → t.Awake g

namespace Settled

variable {s : Schema} {t : Table} {cs : Clusters} {c : Cluster} {h : Handle}

/-- Every object of a cluster is there and not flagged. -/
theorem awake_objects (hs : Settled s t cs) (hc : c ∈ cs.list) (hm : h ∈ c.objects) :
    t.Awake h := by
  rcases Cluster.mem_objects.mp hm with rfl | hm
  · exact hs.roots c hc
  · obtain ⟨o, ho, -, hu⟩ := hs.orderly.enrolled.member c hc h hm
    exact ⟨o, ho, hu⟩

/-- Changes that take references away and leave owners, roots and the flag `unreachable` alone keep a
heap settled. -/
theorem evolves (hs : Settled s t cs) {t' : Table} {R : Handle → Object → Object → Prop}
    {dead : Handle → Prop} (ev : t.Evolves R t') (hthin : ∀ h o o', R h o o' → o.Thins s dead o')
    (howner : ∀ h o o', t.get? h = some o → R h o o' → o'.owner = o.owner)
    (hroot : ∀ h o o', t.get? h = some o → R h o o' → o'.has .clusterRoot = o.has .clusterRoot)
    (hflag : ∀ h o o', t.get? h = some o → R h o o' → o'.isUnreachable = o.isUnreachable)
    (hkill : ∀ h o o', t.get? h = some o → R h o o' →
      (o.has .rootSet = true → o.has .pendingKill = false) →
      o'.has .rootSet = true → o'.has .pendingKill = false) : Settled s t' cs := by
  have hawake : ∀ h, t.Awake h → t'.Awake h := by
    intro h ha
    obtain ⟨o, ho, hu⟩ := ha
    obtain ⟨o', ho', hr⟩ := ev.kept h o ho
    exact ⟨o', ho', (hflag h o o' ho hr).trans hu⟩
  have hback : ∀ h, t'.Awake h → t.Awake h := by
    intro h ha
    obtain ⟨o', ho', hu⟩ := ha
    obtain ⟨o, ho, hr⟩ := ev.back ho'
    exact ⟨o, ho, (hflag h o o' ho hr).symm.trans hu⟩
  refine ⟨?_, fun c hc => hawake _ (hs.roots c hc), ?_, ?_⟩
  · apply hs.orderly.evolves ev hthin howner hroot _ hkill
    intro h o o' ho hr _ hu
    exact (hflag h o o' ho hr).trans hu
  · intro c hc hp m hm
    rw [ev.isPermanent] at hp
    exact hawake m (hs.mutables c hc hp m hm)
  · intro h k g he ha hheed
    rw [ev.isPermanent] at hheed
    have he' := he.back hs.orderly.regular hs.orderly.fits ev hthin
    exact hawake g (hs.linked h k g he' (hback h ha) hheed)

end Settled

end TracingHeap
