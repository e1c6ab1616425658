import TracingHeap.Proofs.Mark.DissolutionOrder
import TracingHeap.Proofs.Trace.WaveRuns

namespace TracingHeap

def Flags.findings : Flags := marks.union (single .clusterRoot)

theorem Flags.remove_findings {a b : Flags} (h : a.remove marks = b.remove marks) :
    a.remove findings = b.remove findings := by
  apply ext_bits
  intro i hi
  have hbit : (a.remove marks).bits.getLsbD i = (b.remove marks).bits.getLsbD i := by rw [h]
  rw [getLsbD_remove hi, getLsbD_remove hi] at hbit ⊢
  have hfindings : findings.bits.getLsbD i =
      (marks.bits.getLsbD i || (single .clusterRoot).bits.getLsbD i) := by
    simp [findings, union]
  rw [hfindings]
  cases hm : marks.bits.getLsbD i with
  | true => simp
  | false =>
    rw [hm] at hbit
    simp only [Bool.not_false, Bool.and_true] at hbit
    rw [hbit]

structure Retains (s : Schema) (t : Table) (cs : Clusters) (t' : Table) (cs' : Clusters) :
    Prop where
  frame : t.Frame t'
  outlasts : t.Outlasts s t'
  rest : ∀ h o o', t.get? h = some o → t'.get? h = some o' →
    o'.flags.remove .findings = o.flags.remove .findings
  free : ∀ h, t.Free h → t'.Free h
  lone : ∀ h, t.Lone h → t'.Lone h
  marked : ∀ h, t.Marked h → t'.Marked h
  clusters : ∀ c ∈ cs.list, t.isPermanent c.root = false → t.Free c.root →
    ∃ d ∈ cs'.list, c.Alike d
  paired : t.Paired → t'.Paired

namespace Retains

variable {s : Schema} {t t' t'' : Table} {cs cs' cs'' ds : Clusters} {w : Scope}

theorem trans (a : Retains s t cs t' cs') (b : Retains s t' cs' t'' cs'') :
    Retains s t cs t'' cs'' := by
  refine ⟨a.frame.trans b.frame, a.outlasts.trans b.outlasts, fun h o q ho hq => ?_,
    fun h hf => b.free h (a.free h hf), fun h hl => b.lone h (a.lone h hl),
    fun h hm => b.marked h (a.marked h hm), fun c hc hp hf => ?_, b.paired ∘ a.paired⟩
  · obtain ⟨o', ho', -⟩ := a.outlasts.kept ho
    exact (b.rest h o' q ho' hq).trans (a.rest h o o' ho ho')
  · obtain ⟨d, hd, hcd⟩ := a.clusters c hc hp hf
    obtain ⟨e, he, hde⟩ := b.clusters d hd
      (by rw [hcd.root, Table.Evolves.isPermanent a.outlasts, hp])
      (hcd.root ▸ a.free c.root hf)
    exact ⟨e, he, hcd.trans hde⟩

theorem alike_left (a : Retains s t cs t' cs') (h : ds.Alike cs) : Retains s t ds t' cs' := by
  refine ⟨a.frame, a.outlasts, a.rest, a.free, a.lone, a.marked, fun d hd hp hf => ?_, a.paired⟩
  obtain ⟨c, hc, hdc⟩ := h.forth d hd
  obtain ⟨e, he, hce⟩ := a.clusters c hc (hdc.root ▸ hp) (hdc.root ▸ hf)
  exact ⟨e, he, hdc.trans hce⟩

theorem isPermanent (a : Retains s t cs t' cs') (h : Handle) : t'.isPermanent h = t.isPermanent h :=
  Table.Evolves.isPermanent a.outlasts h

/-- A trace leaves the clusters alone. -/
theorem of_struck (a : t.Advances s t') (b : t.Struck w (fun _ => False) t') (cs : Clusters) :
    Retains s t cs t' cs := by
  refine ⟨b.toFrame, a.outlasts, fun h o o' ho ho' => ?_, fun h hf => a.free hf, fun h hl => ?_,
    fun h hm => a.marked hm, fun c hc _ _ => ⟨c, hc, .refl c⟩, b.paired⟩
  · exact Flags.remove_findings (b.objects.of_some ho ho').rest
  · obtain ⟨o, ho, hn, hroot⟩ := hl
    obtain ⟨o', ho', hs⟩ := b.objects.kept h o ho
    exact ⟨o', ho', hs.owner.trans hn, (hs.has (by decide)).trans hroot⟩

end Retains

namespace Object

/-- What is not in a dissolved cluster stays as it is. -/
theorem fate_eq {gone : List Handle} {h : Handle} {o : Object} (hg : h ∉ gone)
    (hown : ∀ r ∈ gone, o.owner ≠ some r) : o.fate gone h = o := by
  rw [fate, if_neg hg, if_neg]
  intro hrel
  obtain ⟨r, hr, he⟩ := hrel
  exact hown r hr he

theorem rest_fate {gone : List Handle} {h : Handle} {o : Object} :
    (o.fate gone h).flags.remove .findings = o.flags.remove .findings := by
  have hdisband : o.disband.flags.remove .findings = o.flags.remove .findings := by
    unfold disband
    change (((o.flags.clear .clusterRoot).clear .noStrongReference)).remove .findings = _
    rw [Flags.remove_clear (by decide), Flags.remove_clear (by decide)]
  have hrelease : o.release.flags.remove .findings = o.flags.remove .findings := by
    unfold release
    dsimp only
    split
    · exact Flags.remove_clear (by decide) _
    · change ((o.flags.clear .noStrongReference).set .unreachable).remove .findings = _
      rw [Flags.remove_set (by decide), Flags.remove_clear (by decide)]
  unfold fate
  split
  · exact hdisband
  · split
    · exact hrelease
    · rfl

theorem paired_fate {gone : List Handle} {h : Handle} {o : Object}
    (hp : o.has .noStrongReference = true → o.isUnreachable = true)
    (hn : (o.fate gone h).has .noStrongReference = true) :
    (o.fate gone h).isUnreachable = true := by
  unfold fate at hn ⊢
  split at hn
  · simp [disband] at hn
  · split at hn
    · unfold release at hn
      dsimp only at hn
      split at hn <;> simp at hn
    · rename_i hg hrel
      rw [if_neg hg, if_neg hrel]
      exact hp hn

end Object

namespace Clusters.Scattered

variable {s : Schema} {keeping : Bool} {good : Handle → Prop} {weak : Site → Prop} {t : Table}
  {cs : Clusters} {gone : List Handle} {found : List Handle × Table × Clusters} {c : Cluster}
  {h r : Handle} {o : Object}
  (hdead : ∀ r ∈ gone, ∃ c ∈ cs.list, c.root = r ∧ t.isUnreachable r = true)
include hdead

/-- A claimed object is none of the dissolved roots. -/
theorem not_gone_of_free (hf : t.Free h) : h ∉ gone := by
  intro hg
  obtain ⟨c, -, rfl, hu⟩ := hdead h hg
  rw [hf.awake.isUnreachable] at hu
  cases hu

variable (p : Tracing s cs keeping good (fun _ => False) weak t)
include p

omit p in
theorem fate_free (ho : t.get? h = some o) (hf : t.Free h) : o.fate gone h = o := by
  refine Object.fate_eq (not_gone_of_free hdead hf) fun r _ => ?_
  obtain ⟨q, hq, hn, -⟩ := hf
  rw [ho] at hq
  cases hq
  simp [hn]

theorem fate_permanent (ho : t.get? h = some o) (hp : t.isPermanent h = true) :
    o.fate gone h = o := by
  have hcollectable : ∀ c ∈ cs.list, c.root ∈ gone → h ∉ c.objects := by
    intro c hc hr hm
    obtain ⟨d, hd, hroot, hu⟩ := hdead c.root hr
    have hh := p.collectable_of_dead hc (hroot ▸ hu) hm
    rw [hp] at hh
    cases hh
  refine Object.fate_eq (fun hg => ?_) fun r hr hown => ?_
  · obtain ⟨c, hc, rfl, -⟩ := hdead h hg
    exact hcollectable c hc hg (Cluster.mem_objects.mpr (.inl rfl))
  · obtain ⟨c, hc, rfl, hm⟩ := p.orderly.enrolled.listed h o r ho hown
    exact hcollectable c hc hr (Cluster.mem_objects.mpr (.inr hm))

variable (b : Scattered s keeping good weak t cs gone found)
include b

/-- What was marked stays marked. -/
theorem marked (hm : t.Marked h) : found.2.1.Marked h := by
  rcases hm with hp | hf | ⟨o, ho, hn, hr⟩
  · exact .inl ((b.table.isPermanent h).trans hp)
  · obtain ⟨o, ho, hn, hu⟩ := hf
    obtain ⟨o', ho', he⟩ := b.table.kept h o ho
    rw [fate_free hdead ho ⟨o, ho, hn, hu⟩] at he
    exact .inr (.inl ⟨o', ho', he ▸ hn, he ▸ hu⟩)
  · obtain ⟨o', ho', he⟩ := b.table.kept h o ho
    obtain ⟨r, hown⟩ := Option.ne_none_iff_exists'.mp hn
    obtain ⟨c, hc, -, hm⟩ := p.orderly.enrolled.listed h o r ho hown
    have hu : o.isUnreachable = false := by
      obtain ⟨q, hq, -, hu⟩ := p.orderly.enrolled.member c hc h hm
      rw [ho] at hq
      cases hq
      exact hu
    have hg : h ∉ gone := by
      intro hg
      obtain ⟨d, hd, rfl, -⟩ := hdead h hg
      exact p.orderly.enrolled.root_not_member hd hc hm
    by_cases hrel : ∃ r ∈ gone, o.owner = some r
    · rw [Object.fate, if_neg hg, if_pos hrel] at he
      subst he
      exact .inr (.inl ⟨_, ho', o.owner_release, by rw [o.isUnreachable_release hu, hr]; rfl⟩)
    · rw [Object.fate, if_neg hg, if_neg hrel] at he
      subst he
      exact .inr (.inr ⟨_, ho', hn, hr⟩)

/-- What is marked afterwards was marked before. -/
theorem marked_back (hm : found.2.1.Marked h) : t.Marked h := by
  rcases hm with hp | ⟨o', ho', hn, hu⟩ | ⟨o', ho', hn, hr⟩
  · exact .inl ((b.table.isPermanent h).symm.trans hp)
  · obtain ⟨o, ho, rfl⟩ := b.table.back ho'
    by_cases hg : h ∈ gone
    · obtain ⟨c, hc, rfl, hdu⟩ := hdead h hg
      rw [Table.isUnreachable_of_get? ho] at hdu
      rw [Object.fate, if_pos hg] at hu
      simp only [Object.isUnreachable, Object.disband, Object.has_clear] at hdu hu
      rw [hdu] at hu
      cases hu
    · by_cases hrel : ∃ r ∈ gone, o.owner = some r
      · obtain ⟨r, hr, hown⟩ := hrel
        have hawake : o.isUnreachable = false := by
          cases hx : o.isUnreachable with
          | false => rfl
          | true =>
            rw [p.owner_eq_none ho hx] at hown
            cases hown
        rw [Object.fate, if_neg hg, if_pos ⟨r, hr, hown⟩, o.isUnreachable_release hawake,
          Bool.not_eq_false'] at hu
        exact .inr (.inr ⟨o, ho, by simp [hown], hu⟩)
      · rw [Object.fate, if_neg hg, if_neg hrel] at hn hu
        exact .inr (.inl ⟨o, ho, hn, hu⟩)
  · obtain ⟨o, ho, rfl⟩ := b.table.back ho'
    rw [Object.has_fate (by decide) (by decide) (by decide)] at hr
    refine .inr (.inr ⟨o, ho, fun hnone => hn ?_, hr⟩)
    rw [Object.fate]
    split
    · exact hnone
    · split
      · exact o.owner_release
      · exact hnone

/-- The cluster of a claimed root has referenced no dead cluster, so it keeps what it kept. -/
theorem cluster_of_free (hc : c ∈ cs.list) (hp : t.isPermanent c.root = false)
    (hf : t.Free c.root) : ∃ d ∈ found.2.2.list, c.Alike d := by
  have he := p.orderly.enrolled
  have hleft : c.root ∈ found.2.2.list.map (·.root) := by
    refine b.roots.mem_iff.mpr (List.mem_filter.mpr ⟨List.mem_map_of_mem hc, ?_⟩)
    rw [decide_eq_true_eq]
    exact not_gone_of_free hdead hf
  obtain ⟨d, hd, hroot⟩ := List.mem_map.mp hleft
  obtain ⟨e, hemem, hed⟩ := b.clusters d hd
  have hsame : e = c := Clusters.eq_of_root he.distinct hemem hc (hed.root.symm.trans hroot)
  rw [hsame] at hed
  have htraced := (p.traced c.root hp hf).resolve_left id
  have hnone : ∀ r ∈ c.referenced, r ∉ gone := fun r hr =>
    not_gone_of_free hdead ((htraced.expanded c hc rfl).2 r hr)
  obtain ⟨hreferenced, hmutables⟩ := hed.same hnone
  obtain ⟨-, hr, hm⟩ := he.nodup c hc
  obtain ⟨-, hr', hm'⟩ := b.tracing.orderly.enrolled.nodup d hd
  exact ⟨d, hd, hed.root, hed.members,
    (List.perm_ext_iff_of_nodup hr hr').mpr fun x => (hreferenced x).symm,
    (List.perm_ext_iff_of_nodup hm hm').mpr fun x => (hmutables x).symm⟩

theorem retains : Retains s t cs found.2.1 found.2.2 := by
  refine ⟨b.frame, b.table.mono fun h o o' ho he => ⟨⟨?_, fun f h1 _ h3 h4 => ?_⟩, fun hp => ?_⟩,
    fun h o o' ho ho' => ?_, fun h hf => ?_, fun h hl => ?_, fun h hm => marked hdead p b hm,
    fun c hc hp hf => cluster_of_free hdead p b hc hp hf, fun hp h o' ho' hn => ?_⟩
  · exact he ▸ Object.thins_fate
  · rw [he, Object.has_fate h1 h4 h3]
  · rw [he, fate_permanent hdead p ho hp]
  · rw [b.table.of_some ho ho', Object.rest_fate]
  · obtain ⟨o, ho, hn, hu⟩ := hf
    obtain ⟨o', ho', he⟩ := b.table.kept h o ho
    rw [fate_free hdead ho ⟨o, ho, hn, hu⟩] at he
    exact ⟨o', ho', he ▸ hn, he ▸ hu⟩
  · obtain ⟨o, ho, hn, hroot⟩ := hl
    obtain ⟨o', ho', he⟩ := b.table.kept h o ho
    have hsame : o.fate gone h = o := by
      refine Object.fate_eq (fun hg => ?_) fun r _ => by simp [hn]
      obtain ⟨c, hc, rfl, -⟩ := hdead h hg
      obtain ⟨q, hq, hflag, -⟩ := p.orderly.enrolled.root c hc
      rw [ho] at hq
      cases hq
      rw [hroot] at hflag
      cases hflag
    rw [hsame] at he
    exact ⟨o', ho', he ▸ hn, he ▸ hroot⟩
  · obtain ⟨o, ho, rfl⟩ := b.table.back ho'
    exact Object.paired_fate (hp h o ho) hn

end Clusters.Scattered

end TracingHeap
