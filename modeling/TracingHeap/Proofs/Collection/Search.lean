import TracingHeap.Proofs.Collection.NulledSlots
import TracingHeap.Proofs.Mark.Turns

namespace TracingHeap

theorem frame_of_seedObject {keep : Flags} {found : Array Handle × Table} {h : Handle} :
    Ends (fun _ => False) (seedObject keep found h) fun found' => found.2.Frame found'.2 := by
  obtain ⟨seeds, t⟩ := found
  have hclear : t.Frame (t.clearFlag h .reachableInCluster) := .modify t h _
  cases ho : t.get? h with
  | none =>
    unfold seedObject
    simp only [ho]
    exact .refl t
  | some o =>
    cases hu : o.isUnreachable with
    | true =>
      rw [seedObject_flagged ho hu]
      exact id
    | false =>
      rw [seedObject_eq ho hu]
      split
      · exact id
      · change t.Frame (t.seedAt h o keep)
        unfold Table.seedAt
        split
        · exact hclear
        · exact (hclear.trans (.modify _ h _)).trans (.modify _ h _)

/-- Seeding leaves the slots of the table as they are. -/
theorem frame_of_seed {keep : Flags} {t t' : Table} {seeds : List Handle} {considered : Nat}
    (hok : seed keep t = .ok (seeds, considered, t')) : t.Frame t' := by
  unfold seed at hok
  obtain ⟨⟨found, t₁⟩, hfold, hok⟩ := except_bind_ok hok
  cases hok
  exact (Ends.foldlM (f := seedObject (keep.union Flags.keep))
    (fun _ found => t.Frame found.2)
    (fun h rest found hI => frame_of_seedObject.mono fun found' h => hI.trans h)
    (.refl t)).ok hfold

theorem Object.paired_seeded {keep : Flags} (o : Object) (hnone : o.has .noStrongReference = false)
    (hn : (o.seeded keep).has .noStrongReference = true) : (o.seeded keep).isUnreachable = true := by
  unfold seeded at hn ⊢
  dsimp only at hn ⊢
  split at hn
  · simp [hnone] at hn
  · rename_i h
    rw [if_neg h]
    simp [isUnreachable]

section

variable {s : Schema} {t t' t₁ : Table} {cs cs₁ : Clusters} {keep : Flags} {keeping : Bool}
  {good : Handle → Prop} {weak : Site → Prop} {roots survivors : List Handle}

/-- In a seeded table only flagged objects have the flag `noStrongReference`. -/
theorem Table.Paired.seeded (hp : t.Paired) (ev : t.Evolves (t.SeededAs keep) t')
    (hfresh : ∀ h o, t.get? h = some o → t.isPermanent h = false → o.isUnreachable = false) :
    t'.Paired := by
  intro h o' ho' hn
  obtain ⟨o, ho, he⟩ := ev.back ho'
  cases hperm : t.isPermanent h with
  | true =>
    rw [he.permanent hperm] at hn ⊢
    exact hp h o ho hn
  | false =>
    have hnone : o.has .noStrongReference = false := by
      cases hx : o.has .noStrongReference with
      | false => rfl
      | true => exact (hp h o ho hx).symm.trans (hfresh h o ho hperm)
    rw [he.collectable hperm] at hn ⊢
    exact o.paired_seeded hnone hn

/-- When no dead cluster has a member that was referenced from outside, dissolving the dead clusters is
the verdict. -/
theorem Tracing.judge (p : Tracing s cs keeping good (fun _ => False) weak t)
    (hout : ∀ c ∈ cs.list, Clusters.outlived t c = false)
    (order : roots.Perm ((cs.list.filter fun c => t.isUnreachable c.root).map (·.root)))
    (run : Clusters.Scatters s roots ([], t, cs) (survivors, t₁, cs₁)) :
    (∀ r ∈ roots, ∃ c ∈ cs.list, c.root = r ∧ t.isUnreachable r = true) ∧
      Clusters.Scattered s keeping good weak t cs roots ([], t₁, cs₁) ∧
      Retains s t cs t₁ cs₁ ∧ Judged s keeping good weak t₁ cs₁ := by
  have hf : ∀ c ∈ cs.list, (fun c => t.isUnreachable c.root) c = true →
      t.isUnreachable c.root = true := fun _ _ h => h
  have b := p.scattered hf order run
  have hdead := (Clusters.dead_of_filter p.orderly hf order).2
  have hretains := b.retains hdead p
  have hnone : survivors = [] := by
    refine List.eq_nil_iff_forall_not_mem.mpr fun h hh => ?_
    obtain ⟨r, hr, hmem⟩ := List.mem_flatMap.mp (b.survivors.mem_iff.mp hh)
    obtain ⟨c, hc, rfl, hu⟩ := hdead r hr
    rw [Clusters.survivors, Clusters.get?_of_mem p.orderly.enrolled.distinct hc] at hmem
    obtain ⟨hm, hflag⟩ := List.mem_filter.mp hmem
    have hlive := outlived_iff.mpr ⟨hu, h, hm, hflag⟩
    rw [hout c hc] at hlive
    cases hlive
  subst hnone
  refine ⟨hdead, b, hretains, b.tracing.congr fun h => by simp, fun d hd => ?_⟩
  · obtain ⟨c, hc, hcd⟩ := b.clusters d hd
    have hleft := b.roots.mem_iff.mp (List.mem_map_of_mem hd)
    rw [List.mem_filter, decide_eq_true_eq, hcd.root] at hleft
    obtain ⟨o, ho, -, hn⟩ := p.orderly.enrolled.root c hc
    rw [hcd.root]
    refine (hretains.free c.root ⟨o, ho, hn, ?_⟩).awake
    cases hu : o.isUnreachable with
    | false => rfl
    | true =>
      refine absurd (order.mem_iff.mpr (List.mem_map_of_mem (List.mem_filter.mpr ⟨hc, ?_⟩))) hleft.2
      rw [Table.isUnreachable_of_get? ho, hu]

end

namespace Collector

variable {c d : Collector} {keep : Flags} {stats stats' : Statistics} {t t' : Table}
  {cs cs' : Clusters}

structure Planted (c : Collector) (keep : Flags) (seeds : List Handle) (t₀ : Table) : Prop where
  sown : c.table.Evolves (c.table.SeededAs (keep.union Flags.keep)) t₀
  frame : c.table.Frame t₀
  fresh : ∀ h o, c.table.get? h = some o → c.table.isPermanent h = false → o.isUnreachable = false
  chosen : ∀ h, h ∈ seeds ↔ c.table.isPermanent h = false ∧
    ∃ o, c.table.get? h = some o ∧ o.isSeed (keep.union Flags.keep) = true
  tracing : Tracing c.schema c.clusters c.settings.memberKeepsCluster (fun _ => True) (· ∈ seeds)
    (· ∈ Tally.empty.weak) t₀

/-- The stages of a search for the dead: the seeds and the seeded table, what the mark comes to, the
verdict, and the nulling. -/
structure Search (c : Collector) (keep : Flags) (seeds : List Handle) (t₀ : Table) (r : Stand)
    (roots : List Handle) (t₁ : Table) (cs₁ : Clusters) (cleared : Nat) (t₂ : Table) : Prop
    extends c.Planted keep seeds t₀ where
  rounded : Rounded c.schema c.settings.memberKeepsCluster (fun _ => True) seeds
    ⟨t₀, c.clusters, .empty, 0⟩ r
  dead : ∀ d ∈ roots, ∃ e ∈ r.clusters.list, e.root = d ∧ r.table.isUnreachable d = true
  scattered : Clusters.Scattered c.schema c.settings.memberKeepsCluster (fun _ => True)
    (· ∈ r.tally.weak) r.table r.clusters roots ([], t₁, cs₁)
  retains : Retains c.schema r.table r.clusters t₁ cs₁
  judged : Judged c.schema c.settings.memberKeepsCluster (fun _ => True) (· ∈ r.tally.weak) t₁ cs₁
  nulls : t₁.Nulls c.schema cleared t₂
  settled : Settled c.schema t₂ cs₁
  clean : ∀ h, t₁.isPermanent h = true → t₂.WeakClean c.schema h

/-- A seeded heap can be traced. -/
theorem Sound.planted (hc : c.Sound) {seeds : List Handle} {considered : Nat} {t₀ : Table}
    (hok : seed keep c.table = .ok (seeds, considered, t₀)) : c.Planted keep seeds t₀ := by
  have hs := hc.settled
  obtain ⟨ev, hfresh, hseeds⟩ := (seed_spec hs.orderly.tidy hs.orderly.unkilled).ok hok
  exact ⟨ev, frame_of_seed hok, hfresh, hseeds,
    hs.tracing ev hfresh .all _ _ hseeds fun _ _ => trivial⟩

theorem Planted.has {seeds : List Handle} {t₀ : Table} (a : c.Planted keep seeds t₀) {f : Flag}
    (h1 : f ≠ .unreachable) (h2 : f ≠ .reachableInCluster) (h3 : f ≠ .noStrongReference) (g : Handle) :
    t₀.has g f = c.table.has g f :=
  a.sown.has_eq (fun _ _ _ _ he => he.has h1 h2 h3) g

/-- Seeding leaves the flag `noStrongReference` to flagged objects. -/
theorem Planted.paired {seeds : List Handle} {t₀ : Table} (a : c.Planted keep seeds t₀)
    (hp : c.table.Paired) : t₀.Paired :=
  hp.seeded a.sown a.fresh

/-- Every run of a search goes through the stages. -/
theorem Finds.search (hc : c.Sound) {seeds roots survivors : List Handle} {met : Array Site}
    {t₀ t₁ t₂ : Table} {cs₁ : Clusters} {r : Stand} {considered cleared : Nat}
    (seeded : seed keep c.table = .ok (seeds, considered, t₀))
    (marked : MarksRounds c.schema c.settings.memberKeepsCluster seeds
      ⟨t₀, c.clusters, .empty, 0⟩ r)
    (order : roots.Perm ((r.clusters.list.filter fun e => r.table.isUnreachable e.root).map
      (·.root)))
    (scattered : Clusters.Scatters c.schema roots ([], r.table, r.clusters) (survivors, t₁, cs₁))
    (weak : met.Perm r.tally.weak) (swept : clearWeak c.schema cs₁ met t₁ = .ok (t₂, cleared)) :
    c.Search keep seeds t₀ r roots t₁ cs₁ cleared t₂ := by
  have hplanted := hc.planted seeded
  have hr := marked.rounded hplanted.tracing
  obtain ⟨hdead, b, hretains, j⟩ := hr.tracing.judge hr.outlived order scattered
  have ho := j.tracing.orderly
  have hmem : ∀ {x}, x ∈ met ↔ x ∈ r.tally.weak := weak.mem_iff
  have hmet : ∀ x ∈ met, Met c.schema t₁ x := fun x hx =>
    ((hr.met x (hmem.mp hx)).resolve_left (Array.not_mem_empty x)).retains hr.tracing.orderly hretains
  have hnulls := (clearWeak_nulls ho j.roots
    fun x hx => ⟨(hmet x hx).free.awake, (hmet x hx).weak⟩).ok swept
  obtain ⟨d, hclean, hclustered, hpermanent⟩ := (clearWeak_spec ho met).ok swept
  have hsettled := j.settled d (fun x hx => hclean x (hmem.mpr hx)) hclustered hpermanent
  exact ⟨hplanted, hr, hdead, b, hretains, j, hnulls, hsettled, hpermanent⟩

/-- What a search for the dead leaves is what its stages come to. -/
theorem search_of_condemn (hc : c.Sound) (hok : c.condemn keep = .ok (stats, d)) :
    ∃ (seeds roots : List Handle) (t₀ t₁ : Table) (r : Stand),
      c.Search keep seeds t₀ r roots t₁ d.clusters stats.weakCleared d.table ∧
      MarksRounds c.schema c.settings.memberKeepsCluster seeds ⟨t₀, c.clusters, .empty, 0⟩ r := by
  obtain ⟨hfinds, -⟩ := finds_of_condemn hok
  generalize d.table = t at hfinds
  generalize d.clusters = cs at hfinds
  cases hfinds with
  | intro _ _ _ seeded marked order scattered weak swept =>
    exact ⟨_, _, _, _, _, Finds.search hc seeded marked order scattered weak swept, marked⟩

/-- The search leaves the flag `noStrongReference` to flagged objects. -/
theorem Search.paired {seeds roots : List Handle} {t₀ t₁ t₂ : Table} {cs₁ : Clusters} {r : Stand}
    {cleared : Nat} (a : c.Search keep seeds t₀ r roots t₁ cs₁ cleared t₂) (hp : c.table.Paired) :
    t₂.Paired := by
  have h₀ := a.toPlanted.paired hp
  intro h o' ho' hn
  obtain ⟨o, ho, -, -, hflags⟩ := a.nulls.drops.back ho'
  have hsame : ∀ f, o'.has f = o.has f := fun f => congrArg (Flags.has · f) hflags
  rw [hsame] at hn
  exact (hsame .unreachable).trans (a.retains.paired (a.rounded.retains.paired h₀) h o ho hn)

/-- Two searches come to the same table and to the same clusters, and report the same. -/
theorem Finds.confluent (hc : c.Sound) (hp : c.table.Paired) (a : c.Finds keep stats t cs)
    (b : c.Finds keep stats' t' cs') :
    t' = t ∧ cs.Alike cs' ∧ stats' = { stats with parallel := stats'.parallel } := by
  cases a with
  | @intro _ _ _ _ _ _ _ _ _ r _ _ _ _ _ seeded marked order scattered weak swept =>
  cases b with
  | @intro _ _ _ _ _ _ _ _ _ r' _ _ _ _ _ seeded' marked' order' scattered' weak' swept' =>
  rw [seeded] at seeded'
  cases seeded'
  have a := Finds.search hc seeded marked order scattered weak swept
  have a' := Finds.search hc seeded marked' order' scattered' weak' swept'
  obtain ⟨hmark, halike, hscanned, hwaves, hdissolved⟩ := marked.confluent marked' (.refl _) rfl
    (.refl _) rfl rfl rfl a.tracing a.tracing (a.toPlanted.paired hp)
  obtain ⟨u, ks, tally, n⟩ := r
  obtain ⟨u', ks', tally', n'⟩ := r'
  dsimp only at *
  subst hmark
  have hverdict := a.rounded.tracing.orderly
  have hroots := halike.perm_filter hverdict.enrolled.distinct (fun _ _ hcd => by rw [hcd.root]) order
    order'
  obtain ⟨htable, -, hclusters⟩ := a.scattered.confluent hverdict halike hroots a'.scattered
  subst htable
  have ho := a.judged.tracing.orderly
  obtain ⟨rfl, rfl⟩ := a.nulls.unique ho.tidy a'.nulls (a.nulls.settle ho a.settled a.clean)
    (a'.nulls.settle a'.judged.tracing.orderly a'.settled a'.clean)
  refine ⟨rfl, hclusters, ?_⟩
  rw [hscanned, hwaves, hdissolved, hroots.length_eq]

end Collector

end TracingHeap
