import TracingHeap.Proofs.Cluster.OutgoingReferences
import TracingHeap.Cluster.Dissolution

namespace TracingHeap

theorem swapErase_eq {list : List Handle} {h : Handle} (hm : h ∈ list) :
    ∃ i init last, list = init ++ [last] ∧ list[i]? = some h ∧
      swapErase list h = ((init ++ [last]).set i last).dropLast := by
  cases hidx : list.idxOf? h with
  | none => exact absurd hm (List.idxOf?_eq_none_iff.mp hidx)
  | some i =>
    obtain ⟨hlt, hi, -⟩ := List.idxOf?_eq_some_iff.mp hidx
    have hne : list ≠ [] := List.ne_nil_of_mem hm
    refine ⟨i, list.dropLast, list.getLast hne, (List.dropLast_append_getLast hne).symm, ?_, ?_⟩
    · rw [List.getElem?_eq_getElem hlt, hi]
    · rw [List.dropLast_append_getLast hne]
      simp [swapErase, hidx, List.getLast?_eq_getLast_of_ne_nil hne]

/-- One entry is replaced by another. -/
theorem mem_set_of_nodup {list : List Handle} (hn : list.Nodup) {i : Nat} {h x y : Handle}
    (hi : list[i]? = some h) : x ∈ list.set i y ↔ x = y ∨ x ∈ list ∧ x ≠ h := by
  obtain ⟨hlt, -⟩ := List.getElem?_eq_some_iff.mp hi
  simp only [List.mem_iff_getElem?, List.getElem?_set]
  constructor
  · rintro ⟨j, hj⟩
    split at hj
    · exact .inl (Option.some.inj hj).symm
    · rename_i hij
      refine .inr ⟨⟨j, hj⟩, ?_⟩
      rintro rfl
      exact hij ((List.getElem?_inj hlt hn).mp (hi.trans hj.symm))
  · rintro (rfl | ⟨⟨j, hj⟩, hx⟩)
    · exact ⟨i, by simp [hlt]⟩
    · refine ⟨j, ?_⟩
      rw [if_neg]
      · exact hj
      · rintro rfl
        rw [hi] at hj
        exact hx (Option.some.inj hj).symm

/-- Taking an entry out leaves the others, each where it was or in the freed place. -/
theorem swapErase_spec {list : List Handle} (hn : list.Nodup) {h : Handle} (hm : h ∈ list) :
    (swapErase list h).Nodup ∧ ∀ x, x ∈ swapErase list h ↔ x ∈ list ∧ x ≠ h := by
  obtain ⟨i, init, last, hlist, hi, heq⟩ := swapErase_eq hm
  rw [heq]
  subst hlist
  obtain ⟨hninit, -, hdisj⟩ := List.nodup_append.mp hn
  have hlast : last ∉ init := fun hl => hdisj last hl last (List.mem_singleton_self _) rfl
  by_cases hlt : i < init.length
  · rw [List.set_append_left _ _ hlt, List.dropLast_concat]
    rw [List.getElem?_append_left hlt] at hi
    have hne : last ≠ h := fun he => hlast (he ▸ List.mem_of_getElem? hi)
    refine ⟨hninit.set hlast, fun x => ?_⟩
    rw [mem_set_of_nodup hninit hi, List.mem_append, List.mem_singleton]
    constructor
    · rintro (rfl | ⟨hx, hxh⟩)
      · exact ⟨.inr rfl, hne⟩
      · exact ⟨.inl hx, hxh⟩
    · rintro ⟨hx | rfl, hxh⟩
      · exact .inr ⟨hx, hxh⟩
      · exact .inl rfl
  · have hi' : i = init.length := by
      obtain ⟨hb, -⟩ := List.getElem?_eq_some_iff.mp hi
      simp only [List.length_append, List.length_singleton] at hb
      omega
    subst hi'
    have hh : last = h := by simpa using hi
    subst hh
    rw [List.set_append_right _ _ (Nat.le_refl _)]
    simp only [Nat.sub_self, List.set_cons_zero, List.dropLast_concat]
    refine ⟨hninit, fun x => ?_⟩
    rw [List.mem_append, List.mem_singleton]
    constructor
    · intro hx
      exact ⟨.inl hx, fun he => hlast (he ▸ hx)⟩
    · rintro ⟨hx | hx, hne⟩
      · exact hx
      · exact absurd hx hne

namespace Table

/-- Changing several objects by one rule, each once. -/
theorem get?_foldl_modify (f : Object → Object) {l : List Handle} (hn : l.Nodup) (t : Table)
    (g : Handle) : (l.foldl (fun t h => t.modify h f) t).get? g =
      if g ∈ l then (t.get? g).map f else t.get? g := by
  induction l generalizing t with
  | nil => simp
  | cons h rest ih =>
    obtain ⟨hh, hrest⟩ := List.nodup_cons.mp hn
    rw [List.foldl_cons, ih hrest, get?_modify]
    by_cases hg : g = h
    · subst hg
      simp [hh]
    · simp [hg]

theorem boundary_foldl_modify (f : Object → Object) (l : List Handle) (t : Table) :
    (l.foldl (fun t h => t.modify h f) t).boundary = t.boundary := by
  induction l generalizing t with
  | nil => rfl
  | cons h rest ih => rw [List.foldl_cons, ih, boundary_modify]

theorem tidy_foldl_modify {f : Object → Object} (hf : ∀ o, (f o).handle = o.handle)
    {l : List Handle} {t : Table} (ht : t.Tidy) :
    (l.foldl (fun t h => t.modify h f) t).Tidy := by
  induction l generalizing t with
  | nil => exact ht
  | cons h rest ih => exact ih (ht.modify f hf)

theorem evolves_foldl_modify {f : Object → Object} (hf : ∀ o, (f o).handle = o.handle)
    {l : List Handle} (hn : l.Nodup) (t : Table) :
    t.Evolves (fun h o o' => o' = if h ∈ l then f o else o)
      (l.foldl (fun t h => t.modify h f) t) := by
  refine ⟨boundary_foldl_modify f l t, tidy_foldl_modify hf, fun h hh => ?_, fun h o ho => ?_⟩
  · rw [get?_foldl_modify f hn, hh]
    simp
  · refine ⟨_, ?_, rfl⟩
    rw [get?_foldl_modify f hn, ho]
    split <;> rfl

/-- A change of one object, as a rule for every object. -/
theorem evolves_modify {f : Object → Object} (hf : ∀ o, (f o).handle = o.handle) (t : Table)
    (g : Handle) : t.Evolves (fun h o o' => o' = if h = g then f o else o) (t.modify g f) := by
  apply Evolves.modify hf
  · intro o _
    simp
  · intro h o _ hne
    simp [hne]

end Table

def Object.disband (o : Object) : Object := (o.clear .clusterRoot).clear .noStrongReference

def Object.release (o : Object) : Object :=
  let o := (o.setOwner none).clear .noStrongReference
  if o.has .reachableInCluster then o else o.set .unreachable

def Cluster.fate (c : Cluster) (h : Handle) (o : Object) : Object :=
  if h = c.root then o.disband else if h ∈ c.members then o.release else o

def Cluster.disband (c : Cluster) (t : Table) : Table :=
  c.members.foldl Table.freeMember (t.modify c.root Object.disband)

namespace Object

theorem thins_disband {s : Schema} {dead : Handle → Prop} (o : Object) :
    o.Thins s dead o.disband := .of_cells ⟨rfl, rfl, rfl⟩ rfl

theorem thins_release {s : Schema} {dead : Handle → Prop} (o : Object) :
    o.Thins s dead o.release := by
  unfold release
  simp only
  split <;> exact .of_cells ⟨rfl, rfl, rfl⟩ rfl

theorem owner_release (o : Object) : o.release.owner = none := by
  unfold release
  simp only
  split <;> rfl

theorem isUnreachable_release (o : Object) (hu : o.isUnreachable = false) :
    o.release.isUnreachable = !o.has .reachableInCluster := by
  unfold isUnreachable at hu ⊢
  unfold release
  simp only [has_clear, has_setOwner]
  cases hr : o.has .reachableInCluster with
  | true => simp [hu]
  | false => simp

theorem has_release (o : Object) {f : Flag} (h1 : f ≠ .unreachable) (h3 : f ≠ .noStrongReference) :
    o.release.has f = o.has f := by
  unfold release
  simp only
  split
  · simp [Ne.symm h3]
  · simp [Ne.symm h1, Ne.symm h3]

end Object

namespace Cluster

variable {s : Schema} {t : Table} {cs : Clusters} {c : Cluster} {h : Handle} {o : Object}

theorem thins_fate {dead : Handle → Prop} (c : Cluster) (h : Handle) (o : Object) :
    o.Thins s dead (c.fate h o) := by
  unfold fate
  split
  · exact o.thins_disband
  · split
    · exact o.thins_release
    · exact .refl o

theorem owner_fate (ho : h = c.root → o.owner = none) :
    (c.fate h o).owner = if h ∈ c.objects then none else o.owner := by
  unfold fate
  split
  · rename_i he
    simp [mem_objects, he, Object.disband, ho he]
  · rename_i he
    split
    · rename_i hm
      simp [mem_objects, hm, Object.owner_release]
    · rename_i hm
      simp [mem_objects, he, hm]

theorem has_fate {f : Flag} (h1 : f ≠ .unreachable) (h2 : f ≠ .clusterRoot)
    (h3 : f ≠ .noStrongReference) : (c.fate h o).has f = o.has f := by
  unfold fate
  split
  · simp [Object.disband, Ne.symm h2, Ne.symm h3]
  · split
    · exact o.has_release h1 h3
    · rfl

theorem handle_release (o : Object) : o.release.handle = o.handle := by
  have hthin : o.Thins .empty (fun _ => False) o.release := o.thins_release
  exact hthin.handle

/-- Every object meets its fate when a cluster is dissolved. -/
theorem disband_evolves (hn : c.members.Nodup) (hr : c.root ∉ c.members) (t : Table) :
    t.Evolves (fun h o o' => o' = c.fate h o) (c.disband t) := by
  have hroot := Table.evolves_modify (f := Object.disband) (fun _ => rfl) t c.root
  have hmembers := Table.evolves_foldl_modify handle_release hn (t.modify c.root Object.disband)
  apply hroot.trans hmembers
  intro h o p q _ hp hq
  rw [hq, hp, fate]
  by_cases he : h = c.root
  · rw [if_pos he, if_pos he, if_neg (he ▸ hr)]
  · rw [if_neg he, if_neg he]

/-- What becomes of another cluster: one that referenced the dissolved cluster looks at every
reference of its objects again. -/
def Refreshed (s : Schema) (t : Table) (gone : Handle) (c c' : Cluster) : Prop :=
  if gone ∈ c.referenced then
    Noted s t c.objects { c with referenced := swapErase c.referenced gone } c'
  else c' = c

theorem Refreshed.root {gone : Handle} {c' : Cluster} (h : c.Refreshed s t gone c') :
    c'.root = c.root := by
  unfold Refreshed at h
  split at h
  · exact h.root
  · rw [h]

theorem Refreshed.members {gone : Handle} {c' : Cluster} (h : c.Refreshed s t gone c') :
    c'.members = c.members := by
  unfold Refreshed at h
  split at h
  · exact h.members
  · rw [h]

theorem Refreshed.objects {gone : Handle} {c' : Cluster} (h : c.Refreshed s t gone c') :
    c'.objects = c.objects := by
  simp [Cluster.objects, h.root, h.members]

end Cluster

namespace Clusters

variable {s : Schema} {t : Table} {cs cs' : Clusters}

structure Becomes (R : Cluster → Cluster → Prop) (cs cs' : Clusters) : Prop where
  map : ∃ f : Cluster → Cluster, cs'.list = cs.list.map f ∧ (∀ d ∈ cs.list, R d (f d)) ∧
    ∀ d ∈ cs.list, (f d).root = d.root

theorem Becomes.roots {R : Cluster → Cluster → Prop} (h : Becomes R cs cs') :
    cs'.list.map (·.root) = cs.list.map (·.root) := by
  obtain ⟨f, hf, -, hroot⟩ := h.map
  rw [hf, List.map_map]
  exact List.map_congr_left hroot

theorem Becomes.forth {R : Cluster → Cluster → Prop} (h : Becomes R cs cs') {d : Cluster}
    (hd : d ∈ cs.list) : ∃ d' ∈ cs'.list, R d d' ∧ d'.root = d.root := by
  obtain ⟨f, hf, hR, hroot⟩ := h.map
  exact ⟨f d, by rw [hf]; exact List.mem_map_of_mem hd, hR d hd, hroot d hd⟩

theorem Becomes.back {R : Cluster → Cluster → Prop} (h : Becomes R cs cs') {d' : Cluster}
    (hd : d' ∈ cs'.list) : ∃ d ∈ cs.list, R d d' ∧ d'.root = d.root := by
  obtain ⟨f, hf, hR, hroot⟩ := h.map
  rw [hf] at hd
  obtain ⟨d, hm, rfl⟩ := List.mem_map.mp hd
  exact ⟨d, hm, hR d hm, hroot d hm⟩

theorem Becomes.mono {R S : Cluster → Cluster → Prop} (h : Becomes R cs cs')
    (hS : ∀ d d', R d d' → S d d') : Becomes S cs cs' := by
  obtain ⟨f, hf, hR, hroot⟩ := h.map
  exact ⟨f, hf, fun d hd => hS d (f d) (hR d hd), hroot⟩

theorem Becomes.trans {R S T : Cluster → Cluster → Prop} {cs₁ : Clusters} (h : Becomes R cs cs₁)
    (h' : Becomes S cs₁ cs') (hT : ∀ d e d', e.root = d.root → R d e → S e d' → T d d') :
    Becomes T cs cs' := by
  obtain ⟨f, hf, hR, hroot⟩ := h.map
  obtain ⟨f', hf', hS, hroot'⟩ := h'.map
  have hmem : ∀ d ∈ cs.list, f d ∈ cs₁.list := by
    intro d hd
    rw [hf]
    exact List.mem_map_of_mem hd
  refine ⟨f' ∘ f, by rw [hf', hf, List.map_map], fun d hd => ?_, fun d hd => ?_⟩
  · exact hT d (f d) _ (hroot d hd) (hR d hd) (hS (f d) (hmem d hd))
  · rw [Function.comp_apply, hroot' (f d) (hmem d hd), hroot d hd]

theorem Becomes.replace {c c' : Cluster} (hd : (cs.list.map (·.root)).Nodup) (hc : c ∈ cs.list)
    (hroot : c'.root = c.root) :
    Becomes (fun d d' => d = c ∧ d' = c' ∨ d ≠ c ∧ d' = d) cs (cs.replace c') := by
  refine ⟨fun d => if d.root == c'.root then c' else d, rfl, fun d hm => ?_, fun d hm => ?_⟩
  · by_cases he : d = c
    · exact .inl ⟨he, by simp [he, hroot]⟩
    · refine .inr ⟨he, if_neg fun hr => he ?_⟩
      exact eq_of_root hd hm hc ((beq_iff_eq.mp hr).trans hroot)
  · dsimp only
    split
    · rename_i hr
      exact (beq_iff_eq.mp hr).symm
    · rfl

/-- Refreshing one cluster. -/
theorem refresh_cases (hs : s.Regular) (hfit : ∀ h o, t.get? h = some o → s.Fits o)
    {gone r : Handle} (hd : (cs.list.map (·.root)).Nodup)
    (href : ∀ d ∈ cs.list, d.root = r → gone ∈ d.referenced) :
    (∃ cs', cs.refresh s t gone r = .ok cs' ∧
        Becomes (fun d d' => if d.root = r then d.Refreshed s t gone d' else d' = d) cs cs') ∨
      ∃ f : Fault, cs.refresh s t gone r = .error f ∧ f.IsOverflow := by
  unfold refresh
  cases hget : cs.get? r with
  | none =>
    refine .inl ⟨cs, rfl, ⟨id, by simp, fun d hm => ?_, by simp⟩⟩
    rw [if_neg (get?_eq_none_iff.mp hget d hm)]
    rfl
  | some c =>
    obtain ⟨hc, hroot⟩ := mem_of_get? hget
    rcases Cluster.noteAll_cases hs hfit { c with referenced := swapErase c.referenced gone }
      with ⟨c', hc', hnoted⟩ | ⟨f, hf, hover⟩
    · refine .inl ⟨cs.replace c', by simp [hc', orFault, bind, Except.bind, pure, Except.pure], ?_⟩
      have hcroot : c'.root = c.root := hnoted.root
      have hbecomes := Becomes.replace hd hc hcroot
      obtain ⟨f, hf, hR, hfroot⟩ := hbecomes.map
      refine ⟨f, hf, fun d hm => ?_, hfroot⟩
      rcases hR d hm with ⟨heq, hfd⟩ | ⟨hne, hfd⟩
      · rw [hfd, heq, if_pos hroot, Cluster.Refreshed, if_pos (href c hc hroot)]
        exact hnoted
      · rw [if_neg fun hr => hne (eq_of_root hd hm hc (hr.trans hroot.symm))]
        exact hfd
    · exact .inr ⟨f, by simp [hf, orFault, Failure.toFault, bind, Except.bind], hover⟩

/-- Refreshing one cluster after another. -/
theorem refreshAll_cases (hs : s.Regular) (hfit : ∀ h o, t.get? h = some o → s.Fits o)
    (gone : Handle) (rs : List Handle) : ∀ (cs : Clusters), (cs.list.map (·.root)).Nodup →
    rs.Nodup → (∀ d ∈ cs.list, d.root ∈ rs → gone ∈ d.referenced) →
    (∃ cs', rs.foldlM (fun cs r => cs.refresh s t gone r) cs = .ok cs' ∧
        Becomes (fun d d' => if d.root ∈ rs then d.Refreshed s t gone d' else d' = d) cs cs') ∨
      ∃ f : Fault, rs.foldlM (fun cs r => cs.refresh s t gone r) cs = .error f ∧ f.IsOverflow := by
  induction rs with
  | nil =>
    intro cs _ _ _
    exact .inl ⟨cs, rfl, ⟨id, by simp, by simp, by simp⟩⟩
  | cons r rest ih =>
    intro cs hd hrs href
    obtain ⟨hr, hrest⟩ := List.nodup_cons.mp hrs
    rw [List.foldlM_cons]
    have hstep := refresh_cases hs hfit hd fun d hm he => href d hm (he ▸ List.mem_cons_self ..)
    rcases hstep with ⟨cs₁, hok, hbecomes⟩ | ⟨f, hf, hover⟩
    · have hroots := hbecomes.roots
      have href₁ : ∀ d ∈ cs₁.list, d.root ∈ rest → gone ∈ d.referenced := by
        intro d' hd' hm
        obtain ⟨d, hdm, hR, hdr⟩ := hbecomes.back hd'
        have hne : d.root ≠ r := fun he => hr (by rw [← he, ← hdr]; exact hm)
        rw [if_neg hne] at hR
        subst hR
        exact href d' hdm (List.mem_cons_of_mem _ hm)
      rcases ih cs₁ (by rw [hroots]; exact hd) hrest href₁ with ⟨cs', hcs', hrest'⟩ | ⟨f, hf, hover⟩
      · refine .inl ⟨cs', by simp [hok, hcs', bind, Except.bind], hbecomes.trans hrest' ?_⟩
        intro d e d' hroot h1 h2
        rw [hroot] at h2
        by_cases he : d.root = r
        · rw [if_pos he] at h1
          rw [he, if_neg hr] at h2
          rw [if_pos (he ▸ List.mem_cons_self ..), h2]
          exact h1
        · rw [if_neg he] at h1
          rw [h1] at h2
          simpa only [List.mem_cons, he, false_or] using h2
      · exact .inr ⟨f, by simp [hok, hf, bind, Except.bind], hover⟩
    · exact .inr ⟨f, by simp [hf, bind, Except.bind], hover⟩

theorem nodup_referencing (hd : (cs.list.map (·.root)).Nodup) (r : Handle) :
    (cs.referencing r).Nodup :=
  hd.sublist (List.filter_sublist.map _)

theorem root_mem_referencing (hd : (cs.list.map (·.root)).Nodup) {d : Cluster} (hm : d ∈ cs.list)
    {r : Handle} : d.root ∈ cs.referencing r ↔ r ∈ d.referenced := by
  simp only [referencing, List.mem_map, List.mem_filter, List.contains_iff_mem]
  constructor
  · rintro ⟨d', ⟨hd', hr⟩, heq⟩
    rwa [← eq_of_root hd hd' hm heq]
  · intro hr
    exact ⟨d, ⟨hm, hr⟩, rfl⟩

/-- Dissolving a registered cluster refreshes the other clusters. -/
theorem dissolve_refreshes (hs : s.Regular) {c : Cluster} (hc : c ∈ cs.list)
    (hdistinct : (cs.list.map (·.root)).Nodup)
    (hfit : ∀ h o, (c.disband t).get? h = some o → s.Fits o) :
    (∃ cs', cs.dissolve s t c.root = .ok (some c, c.disband t, cs') ∧
        Becomes (fun d d' => d.Refreshed s (c.disband t) c.root d') (cs.erase c.root) cs') ∨
      ∃ f : Fault, cs.dissolve s t c.root = .error f ∧ f.IsOverflow := by
  have hdist : ((cs.erase c.root).list.map (·.root)).Nodup :=
    hdistinct.sublist (List.filter_sublist.map _)
  have hrs := nodup_referencing hdist c.root
  have hmem : ∀ d ∈ (cs.erase c.root).list,
      (d.root ∈ (cs.erase c.root).referencing c.root ↔ c.root ∈ d.referenced) :=
    fun d hd => root_mem_referencing hdist hd
  have hall := refreshAll_cases hs hfit c.root _ _ hdist hrs fun d hd => (hmem d hd).mp
  have hget := get?_of_mem hdistinct hc
  rcases hall with ⟨cs', hcs', hbecomes⟩ | ⟨f, hf, hover⟩
  · refine .inl ⟨cs', ?_, ?_⟩
    · unfold dissolve
      rw [hget]
      simp only
      exact congrArg (· >>= fun others => .ok (some c, c.disband t, others)) hcs'
    · obtain ⟨g, hg, hgR, hgroot⟩ := hbecomes.map
      refine ⟨g, hg, fun d hd => ?_, hgroot⟩
      have hR := hgR d hd
      by_cases hr : c.root ∈ d.referenced
      · rwa [if_pos ((hmem d hd).mpr hr)] at hR
      · rw [if_neg fun hx => hr ((hmem d hd).mp hx)] at hR
        unfold Cluster.Refreshed
        rwa [if_neg hr]
  · refine .inr ⟨f, ?_, hover⟩
    unfold dissolve
    rw [hget]
    simp only
    exact congrArg (· >>= fun others => .ok (some c, c.disband t, others)) hf

/-- Dissolving a registered cluster: every object meets its fate, and the other clusters are
refreshed. -/
theorem dissolve_cases (ho : Orderly s t cs) {c : Cluster} (hc : c ∈ cs.list) :
    (∃ cs', cs.dissolve s t c.root = .ok (some c, c.disband t, cs') ∧
        Becomes (fun d d' => d.Refreshed s (c.disband t) c.root d') (cs.erase c.root) cs') ∨
      ∃ f : Fault, cs.dissolve s t c.root = .error f ∧ f.IsOverflow := by
  have he := ho.enrolled
  have hev := Cluster.disband_evolves (he.nodup c hc).1 (he.root_not_member hc hc) t
  refine dissolve_refreshes ho.regular hc he.distinct fun h o' ho' => ?_
  obtain ⟨o, hget, rfl⟩ := hev.back ho'
  have hthin : o.Thins s (fun _ => False) (c.fate h o) := c.thins_fate h o
  exact hthin.fits (ho.fits h o hget)

theorem mem_erase {r : Handle} {d : Cluster} : d ∈ (cs.erase r).list ↔ d ∈ cs.list ∧ d.root ≠ r := by
  simp [erase]

theorem Becomes.forth_erase {R : Cluster → Cluster → Prop} {r : Handle}
    (h : Becomes R (cs.erase r) cs') {d : Cluster} (hd : d ∈ cs.list) (hne : d.root ≠ r) :
    ∃ d' ∈ cs'.list, R d d' ∧ d'.root = d.root :=
  h.forth (mem_erase.mpr ⟨hd, hne⟩)

theorem Becomes.back_erase {R : Cluster → Cluster → Prop} {r : Handle}
    (h : Becomes R (cs.erase r) cs') {d' : Cluster} (hd' : d' ∈ cs'.list) :
    ∃ d ∈ cs.list, d.root ≠ r ∧ R d d' ∧ d'.root = d.root := by
  obtain ⟨d, hd, hR, hroot⟩ := h.back hd'
  obtain ⟨hd, hne⟩ := mem_erase.mp hd
  exact ⟨d, hd, hne, hR, hroot⟩

end Clusters

end TracingHeap
