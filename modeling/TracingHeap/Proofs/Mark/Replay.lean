import TracingHeap.Proofs.Mark.Turns

namespace TracingHeap

/-- The set is closed under the ways from object to object that are still there at the end of a mark. -/
structure Heeds (s : Schema) (keeping : Bool) (u : Table) (ks : Clusters) (Q : Handle → Prop) :
    Prop where
  edge : ∀ h g, Q h → u.isPermanent h = false → u.Free h → u.Lone h → Edge s u h .strong g →
    u.Marked g → u.isPermanent g = false → u.has g .pendingKill = false → Q g
  keeper : keeping = true → ∀ c ∈ ks.list, u.isPermanent c.root = false → ∀ h ∈ c.members, Q h →
    Q c.root
  mutables : ∀ c ∈ ks.list, u.isPermanent c.root = false → Q c.root → ∀ g ∈ c.mutables,
    u.isPermanent g = false → Q g
  referenced : ∀ c ∈ ks.list, u.isPermanent c.root = false → Q c.root → ∀ r ∈ c.referenced,
    u.isPermanent r = false → Q r

/-- What a trace has claimed might be claimed. -/
theorem Table.Struck.marked_cases {w : Scope} {t t' : Table} {h : Handle}
    (a : t.Struck w (fun _ => False) t') (hm : t'.Marked h) : t.Marked h ∨ w.hit h := by
  rcases hm with hp | ⟨o', ho', hn, hu'⟩ | ⟨o', ho', hn, hr⟩
  · exact .inl (.inl ((a.isPermanent h).symm.trans hp))
  · obtain ⟨o, ho, hs⟩ := a.objects.back ho'
    cases hu : o.isUnreachable with
    | true => exact .inr (hs.claimed hu hu').1
    | false => exact .inl (.inr (.inl ⟨o, ho, hs.owner.symm.trans hn, hu⟩))
  · obtain ⟨o, ho, hs⟩ := a.objects.back ho'
    rcases hs.flagged hr with hold | ⟨hit, -⟩
    · exact .inl (.inr (.inr ⟨o, ho, fun hnone => hn (hs.owner.trans hnone), hold⟩))
    · exact .inr hit

section

variable {s : Schema} {keeping : Bool} {good gray : Handle → Prop} {weak : Site → Prop} {w : Scope}
  {t t' u : Table} {cs ks : Clusters} {wave : List Handle} {tally tally' : Tally} {Q : Handle → Prop}
  {h : Handle}

/-- What a trace of the mark comes to lies in the set. The induction is on the way that the trace has
taken; each step of it is still there at the end of the mark. -/
theorem Heeds.of_hits (q : Heeds s keeping u ks Q) (p : Tracing s cs keeping good gray weak t)
    (b : Tracer.Flooded ⟨s, cs, keeping⟩ good w wave t tally t' tally')
    (a : Retains s t' cs u ks) (hwave : ∀ h ∈ wave, t.isPermanent h = false ∧ Q h)
    (hh : Hits ⟨s, cs, keeping⟩ t (fun _ => True) (· ∈ wave) h) : Q h := by
  have hmarked : ∀ {x}, Hits ⟨s, cs, keeping⟩ t (fun _ => True) (· ∈ wave) x →
      t'.isPermanent x = false ∧ t'.Marked x := fun hx =>
    ⟨(b.advances.isPermanent _).trans
      (Tracer.hits_collectable p (fun h hf => (hwave h hf).1) hx),
      Tracer.marked_of_hits p b.tracing b.advances (fun h hf => ⟨(hwave h hf).1, b.marked h hf⟩)
        (fun h hg => hg.elim) hx⟩
  have hperm : ∀ {x}, t.isPermanent x = false → u.isPermanent x = false := fun hp =>
    (a.isPermanent _).trans ((b.advances.isPermanent _).trans hp)
  -- a cluster whose root was met is still there
  have hstays : ∀ c ∈ cs.list, Hits ⟨s, cs, keeping⟩ t (fun _ => True) (· ∈ wave) c.root →
      ∃ d ∈ ks.list, c.Alike d ∧ u.isPermanent d.root = false := by
    intro c hc hx
    obtain ⟨hp', hm⟩ := hmarked hx
    obtain ⟨o', ho', -, hn⟩ := b.tracing.orderly.enrolled.root c hc
    obtain ⟨d, hd, hcd⟩ := a.clusters c hc hp' (hm.free hp' ho' hn)
    exact ⟨d, hd, hcd, hcd.root ▸ (a.isPermanent _).trans hp'⟩
  induction hh with
  | front hf => exact (hwave _ hf).2
  | @edge g h hh hw lone he hp hk ih =>
    obtain ⟨hp', hm⟩ := hmarked hh
    obtain ⟨o, ho, hn, hroot⟩ := lone
    obtain ⟨o', ho', hadv⟩ := b.advances.kept ho
    have hn' : o'.owner = none := hadv.owner.trans hn
    have hroot' : o'.has .clusterRoot = false := by
      rw [hadv.flag _ (by decide) (by decide) (by decide), hroot]
    have he' : Edge s t' h .strong g := he.stays p.orderly.regular p.orderly.fits b.advances
      (fun _ _ _ hr => hr.1.toThins) (by simp [hk])
    have hk' : t'.has g .pendingKill = false := by
      rw [b.advances.has (by decide) (by decide) (by decide), hk]
    have ho₁ := b.tracing.orderly
    refine q.edge h g ih ((a.isPermanent h).trans hp') (a.free h (hm.free hp' ho' hn')) (a.lone h ⟨o', ho', hn', hroot'⟩)
      (he'.stays ho₁.regular ho₁.fits a.outlasts (fun _ _ _ hr => hr.1.toThins) (by simp [hk']))
      (a.marked g (hmarked (.edge hh hw ⟨o, ho, hn, hroot⟩ he hp hk)).2) (hperm hp) ?_
    rw [a.outlasts.has_pendingKill, hk']
  | @keeper h r o hk hh ho hr ih =>
    obtain ⟨c, hc, rfl, hm⟩ := p.orderly.enrolled.listed h o r ho hr
    obtain ⟨d, hd, hcd, hpd⟩ := hstays c hc (.keeper hk hh ho hr)
    rw [← hcd.root]
    exact q.keeper hk d hd hpd h (hcd.members ▸ hm) ih
  | @mutables c g hc hh hg hp ih =>
    obtain ⟨d, hd, hcd, hpd⟩ := hstays c hc hh
    exact q.mutables d hd hpd (hcd.root ▸ ih) g (hcd.mem_mutables.mpr hg) (hperm hp)
  | @referenced c r hc hh hr hp ih =>
    obtain ⟨d, hd, hcd, hpd⟩ := hstays c hc hh
    exact q.referenced d hd hpd (hcd.root ▸ ih) r (hcd.mem_referenced.mpr hr) (hperm hp)

/-- What is claimed in one turn lies in the set. -/
theorem Turned.marked_within {frontier roots survivors : List Handle} {t₁ t₂ : Table}
    {cs₁ cs₂ : Clusters} {tally₁ : Tally}
    (b : Turned s keeping good frontier t cs tally t₁ cs₁ tally₁ roots survivors t₂ cs₂)
    (p : Tracing s cs keeping good (· ∈ frontier) (· ∈ tally.weak) t) (same : cs.Alike cs₁)
    (q : Heeds s keeping u ks Q) (a : Retains s t₂ cs₂ u ks) (hq : ∀ h, t.Marked h → Q h)
    (hfrontier : ∀ h ∈ frontier, Q h) (hm : t₂.Marked h) : Q h := by
  have hm₁ := b.scattered.marked_back b.dead b.flooded.tracing hm
  rcases b.flooded.struck.marked_cases hm₁ with hold | hit
  · exact hq h hold
  · exact q.of_hits (p.alike same) b.flooded (b.dissolved.trans a)
      (fun g hg => ⟨(p.queued g hg).1, hfrontier g hg⟩) hit

end

/-- Everything that a mark has claimed lies in the set. The induction is on the turns. -/
theorem MarksRounds.marked_within {s : Schema} {keeping : Bool} {good : Handle → Prop}
    {frontier : List Handle} {st r : Stand} {u : Table} {ks : Clusters} {Q : Handle → Prop}
    (run : MarksRounds s keeping frontier st r) (q : Heeds s keeping u ks Q)
    (a : Retains s r.table r.clusters u ks)
    (p : Tracing s st.clusters keeping good (· ∈ frontier) (· ∈ st.tally.weak) st.table)
    (hq : ∀ h, st.table.Marked h → Q h) (hfrontier : ∀ h ∈ frontier, Q h) {h : Handle}
    (hm : r.table.Marked h) : Q h := by
  induction run with
  | last same floods order scatters =>
    have b := Turned.intro p same floods order scatters
    exact b.marked_within p same q a hq hfrontier hm
  | next same floods order scatters some others ih =>
    have b := Turned.intro p same floods order scatters
    have hlater := (others.rounded b.scattered.tracing).retains.trans a
    have hnext : ∀ {g}, Table.Marked _ g → Q g := fun hg =>
      b.marked_within p same q hlater hq hfrontier hg
    exact ih a b.scattered.tracing (fun g hg => hnext hg)
      (fun g hg => hnext (b.scattered.free g hg).marked) hm

end TracingHeap
