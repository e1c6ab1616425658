import TracingHeap.Proofs.Mark.WaveWork
import TracingHeap.Proofs.Mark.Turns

namespace TracingHeap

namespace Table

variable {t : Table} {g h : Handle} {o : Object} {queue : List Handle}

instance : Decidable (t.Standalone h) := decidable_of_iff _ standalone_iff.symm

theorem kind_of_get? (ho : t.get? h = some o) : t.kind h = some (o.owner, o.has .clusterRoot) := by
  simp [kind, ho]

theorem has_clusterRoot_eq (t : Table) (h : Handle) :
    t.has h .clusterRoot = (t.kind h).any (·.2) := by
  unfold has kind
  cases t.get? h <;> rfl

theorem Standalone.not_root (hs : t.Standalone g) : t.has g .clusterRoot ≠ true := by
  rw [has_clusterRoot_eq, standalone_iff.mp hs]
  exact Bool.false_ne_true

/-- The deeds that wait for an object, some objects being queued. One waits for a member, in case its
cluster is dissolved. -/
def outstanding (t : Table) (queue : List Handle) (h : Handle) : Nat :=
  match t.kind h with
  | some (some _, false) => 1
  | _ => queue.count h + t.asleep h

theorem outstanding_member {r : Handle} (hk : t.kind h = some (some r, false)) :
    t.outstanding queue h = 1 := by
  rw [outstanding, hk]

theorem outstanding_nil_le (t : Table) (h : Handle) : t.outstanding [] h ≤ 1 := by
  unfold outstanding
  split
  · exact Nat.le_refl 1
  · rw [List.count_nil, Nat.zero_add]
    exact Bool.toNat_le _

theorem outstanding_other (hk : ∀ r, t.kind h ≠ some (some r, false)) :
    t.outstanding queue h = queue.count h + t.asleep h := by
  unfold outstanding
  split
  · rename_i r hkind
    exact absurd hkind (hk r)
  · rfl

end Table

/-- What the deeds of a part of a mark come to for one object. An object that was walked is standalone
from then on, and the root of a cluster that was expanded stays one. -/
structure Worked (g : Handle) (t t' : Table) (before after : Nat) (deeds : List Deed) : Prop where
  balance : deeds.count (.walk g) + deeds.count (.expand g) + after = before
  walked : .walk g ∈ deeds → t'.Standalone g
  expanded : .expand g ∈ deeds → t'.has g .clusterRoot = true
  standalone : t.Standalone g → t'.Standalone g
  root : t.has g .clusterRoot = true → before = 0 → t'.has g .clusterRoot = true

namespace Worked

variable {g : Handle} {t t' t'' : Table} {before between after n : Nat} {deeds deeds' : List Deed}

/-- A part of a mark that does nothing for the object. -/
theorem quiet (hsame : after = before) (hstandalone : t.Standalone g → t'.Standalone g)
    (hroot : t.has g .clusterRoot = true → before = 0 → t'.has g .clusterRoot = true) :
    Worked g t t' before after [] :=
  ⟨by simp [hsame], fun h => absurd h List.not_mem_nil, fun h => absurd h List.not_mem_nil,
    hstandalone, hroot⟩

/-- One part of a mark after another. Where nothing waits any more after a cluster was expanded, the
later part finds nothing to do for it. -/
theorem trans (a : Worked g t t' before between deeds) (b : Worked g t' t'' between after deeds')
    (hone : before ≤ 1) : Worked g t t'' before after (deeds ++ deeds') := by
  have hfirst := a.balance
  have hlater := b.balance
  refine ⟨?_, fun hm => ?_, fun hm => ?_, fun hs => b.standalone (a.standalone hs),
    fun hr hnone => b.root (a.root hr hnone) (by omega)⟩
  · rw [List.count_append, List.count_append]
    omega
  · rcases List.mem_append.mp hm with hm | hm
    · exact b.standalone (a.walked hm)
    · exact b.walked hm
  · rcases List.mem_append.mp hm with hm | hm
    · have hpos := List.count_pos_iff.mpr hm
      exact b.root (a.expanded hm) (by omega)
    · exact b.expanded hm

/-- Where nothing has stopped waiting, nothing was done. -/
theorem none_done (w : Worked g t t' n n deeds) :
    deeds.count (.walk g) = 0 ∧ deeds.count (.expand g) = 0 := by
  have := w.balance
  omega

/-- Of one deed that waited, what was not done waits still, since the object sleeps. -/
theorem done_of_balance {done : Nat} {asleep : Bool} {p : Prop} [Decidable p] (hp : p)
    (hbalance : done + (0 + asleep.toNat) = 1) :
    done = if p ∧ asleep = false then 1 else 0 := by
  cases asleep with
  | true =>
    rw [Bool.toNat_true] at hbalance
    rw [if_neg (by simp)]
    omega
  | false =>
    rw [Bool.toNat_false] at hbalance
    rw [if_pos ⟨hp, rfl⟩]
    omega

/-- Where one deed waited, the object was walked if it ended standalone and claimed. -/
theorem count_walk (w : Worked g t t' 1 (t'.outstanding [] g) deeds) :
    deeds.count (.walk g) = if t'.Standalone g ∧ t'.isUnreachable g = false then 1 else 0 := by
  by_cases hs : t'.Standalone g
  · have hexpand := List.count_eq_zero_of_not_mem fun hm => hs.not_root (w.expanded hm)
    have hbalance := w.balance
    rw [hexpand, Table.outstanding_other (by simp [Table.standalone_iff.mp hs]), List.count_nil,
      Table.asleep] at hbalance
    exact done_of_balance hs hbalance
  · rw [if_neg fun h => hs h.1]
    exact List.count_eq_zero_of_not_mem fun hm => hs (w.walked hm)

/-- Where one deed waited, the cluster was expanded if its root ended as a root and claimed. -/
theorem count_expand (w : Worked g t t' 1 (t'.outstanding [] g) deeds) :
    deeds.count (.expand g) =
      if t'.has g .clusterRoot = true ∧ t'.isUnreachable g = false then 1 else 0 := by
  by_cases hr : t'.has g .clusterRoot = true
  · have hwalk := List.count_eq_zero_of_not_mem fun hm => (w.walked hm).not_root hr
    have hmember : ∀ r, t'.kind g ≠ some (some r, false) := by
      intro r hk
      rw [Table.has_clusterRoot_eq, hk] at hr
      cases hr
    have hbalance := w.balance
    rw [hwalk, Nat.zero_add, Table.outstanding_other hmember, List.count_nil, Table.asleep] at hbalance
    exact done_of_balance hr hbalance
  · rw [if_neg fun h => hr h.1]
    exact List.count_eq_zero_of_not_mem fun hm => hr (w.expanded hm)

end Worked

/-- A cluster is registered exactly if its root is flagged. -/
theorem Enrolled.contains_eq {t : Table} {cs : Clusters} (he : Enrolled t cs) (g : Handle) :
    cs.contains g = t.has g .clusterRoot := by
  rw [Bool.eq_iff_iff, Clusters.contains, Option.isSome_iff_exists]
  constructor
  · rintro ⟨c, hc⟩
    obtain ⟨hmem, rfl⟩ := Clusters.mem_of_get? hc
    obtain ⟨o, ho, hf, -⟩ := he.root c hmem
    rw [Table.has_of_get? ho, hf]
  · intro hf
    cases ho : t.get? g with
    | none => simp [Table.has, ho] at hf
    | some o =>
      rw [Table.has_of_get? ho] at hf
      obtain ⟨c, hc, rfl⟩ := he.registered g o ho hf
      exact ⟨c, Clusters.get?_of_mem he.distinct hc⟩

/-- A trace, seen from the table it leaves. -/
theorem Tracer.Dealt.worked {tr : Tracer} {g : Handle} {t t' : Table} {queue : List Handle}
    {deeds : List Deed} (he : Enrolled t tr.clusters)
    (d : tr.Dealt g t t' (queue.count g + t.asleep g) (t'.asleep g) deeds) :
    Worked g t t' (t.outstanding queue g) (t'.outstanding [] g) deeds := by
  have hkind : t'.kind g = t.kind g := congrFun d.akin.kind g
  have hstay : t.Standalone g → t'.Standalone g := by
    rw [Table.standalone_iff, Table.standalone_iff, hkind]
    exact id
  have hroot : t'.has g .clusterRoot = t.has g .clusterRoot := by
    rw [Table.has_clusterRoot_eq, Table.has_clusterRoot_eq, hkind]
  have hexpanded : .expand g ∈ deeds → t.has g .clusterRoot = true := by
    intro hm
    obtain ⟨c, hc⟩ := Option.isSome_iff_exists.mp (d.expanded hm)
    obtain ⟨hmem, rfl⟩ := Clusters.mem_of_get? hc
    obtain ⟨o, ho, hf, -⟩ := he.root c hmem
    rw [Table.has_of_get? ho, hf]
  refine ⟨?_, fun hm => hstay (d.walked hm), fun hm => hroot.trans (hexpanded hm), hstay,
    fun hr _ => hroot.trans hr⟩
  by_cases hmember : ∃ r, t.kind g = some (some r, false)
  · obtain ⟨r, hk⟩ := hmember
    -- a member is neither walked nor expanded
    have hwalk : .walk g ∉ deeds := fun hm => by
      have := d.walked hm
      rw [Table.standalone_iff, hk] at this
      cases this
    have hexpand : .expand g ∉ deeds := fun hm => by
      have := hexpanded hm
      rw [Table.has_clusterRoot_eq, hk] at this
      cases this
    rw [Table.outstanding_member hk, Table.outstanding_member (hkind.trans hk),
      List.count_eq_zero_of_not_mem hwalk, List.count_eq_zero_of_not_mem hexpand]
  · rw [not_exists] at hmember
    rw [Table.outstanding_other hmember, Table.outstanding_other (hkind ▸ hmember),
      List.count_nil, Nat.zero_add]
    exact d.balance hmember

namespace Clusters

variable {s : Schema} {keeping : Bool} {good : Handle → Prop} {weak : Site → Prop}
  {t t' : Table} {cs cs' : Clusters} {survivors gone : List Handle} {g r : Handle} {o : Object}

/-- A member outlives its cluster if it was referenced from outside. -/
theorem mem_survivors (he : Enrolled t cs) (ho : t.get? g = some o) :
    g ∈ cs.survivors t r ↔ o.owner = some r ∧ o.has .reachableInCluster = true := by
  unfold survivors
  rw [← Table.has_of_get? ho]
  constructor
  · intro hm
    split at hm
    · rename_i c hc
      obtain ⟨hmem, rfl⟩ := mem_of_get? hc
      obtain ⟨hm, hflag⟩ := List.mem_filter.mp hm
      exact ⟨(he.mem_members_iff hmem ho).mp hm, hflag⟩
    · cases hm
  · rintro ⟨hown, hflag⟩
    obtain ⟨c, hc, rfl, hm⟩ := he.listed g o r ho hown
    rw [get?_of_mem he.distinct hc]
    exact List.mem_filter.mpr ⟨hm, hflag⟩

theorem nodup_survivors (he : Enrolled t cs) (r : Handle) : (cs.survivors t r).Nodup := by
  unfold survivors
  split
  · rename_i c hc
    exact (he.nodup c (mem_of_get? hc).1).1.filter _
  · exact .nil

/-- No object outlives two clusters. -/
theorem nodup_survivors_of (he : Enrolled t cs) (hdistinct : gone.Nodup) :
    (gone.flatMap (cs.survivors t)).Nodup := by
  refine List.nodup_flatMap.mpr ⟨fun r _ => nodup_survivors he r, hdistinct.imp ?_⟩
  intro r r' hne g hg hg'
  cases ho : t.get? g with
  | none =>
    unfold survivors at hg
    split at hg
    · rename_i c hc
      obtain ⟨o, ho', -⟩ := he.member c (mem_of_get? hc).1 g (List.mem_filter.mp hg).1
      rw [ho] at ho'
      cases ho'
    · cases hg
  | some o =>
    have hown := ((mem_survivors he ho).mp hg).1
    rw [((mem_survivors he ho).mp hg').1] at hown
    exact hne (Option.some.inj hown).symm

namespace Scattered

section

variable (b : Scattered s keeping good weak t cs gone (survivors, t', cs'))
include b

theorem size_eq : cs'.size = ((cs.list.map (·.root)).filter (· ∉ gone)).length := by
  rw [← b.roots.length_eq, List.length_map]
  rfl

theorem size_le : cs'.size ≤ cs.size := by
  rw [b.size_eq, size, ← List.length_map Cluster.root]
  exact List.length_filter_le _ _

/-- If somebody has survived a cluster, there is a cluster less. -/
theorem size_lt (hne : survivors ≠ []) : cs'.size < cs.size := by
  obtain ⟨g, hg⟩ := List.exists_mem_of_ne_nil _ hne
  rw [b.survivors.mem_iff, List.mem_flatMap] at hg
  obtain ⟨r, hr, hg⟩ := hg
  unfold Clusters.survivors at hg
  split at hg
  · rename_i c hc
    obtain ⟨hmem, rfl⟩ := mem_of_get? hc
    rw [b.size_eq, size, ← List.length_map Cluster.root]
    refine List.length_filter_lt_length_iff_exists.mpr ⟨c.root, List.mem_map_of_mem hmem, ?_⟩
    simpa using hr
  · cases hg

end

variable (ho₀ : Orderly s t cs) (hdistinct : gone.Nodup)
  (hdead : ∀ r ∈ gone, ∃ c ∈ cs.list, c.root = r ∧ t.isUnreachable r = true)
  (b : Scattered s keeping good weak t cs gone (survivors, t', cs'))
include ho₀ hdistinct b

omit hdistinct in
theorem mem_survivors_iff (ho : t.get? g = some o) : g ∈ survivors ↔
    (∃ r ∈ gone, o.owner = some r) ∧ o.has .reachableInCluster = true := by
  rw [b.survivors.mem_iff, List.mem_flatMap]
  simp only [mem_survivors ho₀.enrolled ho]
  constructor
  · rintro ⟨r, hr, hown, hflag⟩
    exact ⟨⟨r, hr, hown⟩, hflag⟩
  · rintro ⟨⟨r, hr, hown⟩, hflag⟩
    exact ⟨r, hr, hown, hflag⟩

/-- Each survivor is listed once. -/
theorem count_survivors (ho : t.get? g = some o) : survivors.count g =
    if (∃ r ∈ gone, o.owner = some r) ∧ o.has .reachableInCluster = true then 1 else 0 := by
  have hmem := mem_survivors_iff ho₀ b ho
  have hnodup := b.survivors.nodup_iff.mpr (nodup_survivors_of ho₀.enrolled hdistinct)
  split
  · rename_i hs
    exact List.count_eq_one_of_mem hnodup (hmem.mpr hs)
  · rename_i hs
    exact List.count_eq_zero_of_not_mem (mt hmem.mp hs)

include hdead

/-- The root of a dissolved cluster still waits to be claimed, now as a standalone object. -/
theorem worked_root (hg : g ∈ gone) :
    Worked g t t' (t.outstanding [] g) (t'.outstanding survivors g) [] := by
  obtain ⟨c, hc, rfl, hu⟩ := hdead g hg
  obtain ⟨o, ho, -, hown⟩ := ho₀.enrolled.root c hc
  obtain ⟨o', ho', hfate⟩ := b.table.kept c.root o ho
  rw [Object.fate, if_pos hg] at hfate
  subst hfate
  have hstand : t'.Standalone c.root := ⟨_, ho', hown, by simp [Object.disband]⟩
  have hcount := count_survivors ho₀ hdistinct b ho
  rw [if_neg (by simp [hown])] at hcount
  have hasleep : t'.asleep c.root = t.asleep c.root := by
    simp [Table.asleep_eq, ho, ho', Object.disband, Object.isUnreachable]
  have hbefore : t.outstanding [] c.root = t.asleep c.root := by
    rw [Table.outstanding_other (by simp [Table.kind_of_get? ho, hown]), List.count_nil,
      Nat.zero_add]
  have hafter : t'.outstanding survivors c.root = t.asleep c.root := by
    rw [Table.outstanding_other (by simp [Table.standalone_iff.mp hstand]), hcount, hasleep,
      Nat.zero_add]
  refine .quiet (hafter.trans hbefore.symm) (fun _ => hstand) fun _ hnone => ?_
  rw [hbefore, Table.asleep, hu] at hnone
  cases hnone

omit hdead

/-- A member of a dissolved cluster is queued if it was referenced from outside, and any other is to be
claimed. -/
theorem worked_member (ho : t.get? g = some o) (hg : g ∉ gone) (hr : r ∈ gone)
    (hown : o.owner = some r) :
    Worked g t t' (t.outstanding [] g) (t'.outstanding survivors g) [] := by
  obtain ⟨c, hc, rfl, hm⟩ := ho₀.enrolled.listed g o r ho hown
  obtain ⟨p, hp, -, hu⟩ := ho₀.enrolled.member c hc g hm
  rw [ho] at hp
  cases hp
  obtain ⟨o', ho', hfate⟩ := b.table.kept g o ho
  rw [Object.fate, if_neg hg, if_pos ⟨c.root, hr, hown⟩] at hfate
  subst hfate
  have hroot := ho₀.enrolled.not_root_of_owner ho hown
  have hstand : t'.Standalone g :=
    ⟨_, ho', o.owner_release, (o.has_release (by decide) (by decide)).trans hroot⟩
  have hbefore : t.outstanding [] g = 1 :=
    Table.outstanding_member (by rw [Table.kind_of_get? ho, hown, hroot])
  have hafter : t'.outstanding survivors g = 1 := by
    rw [Table.outstanding_other (by simp [Table.standalone_iff.mp hstand]),
      count_survivors ho₀ hdistinct b ho, Table.asleep, Table.isUnreachable_of_get? ho',
      o.isUnreachable_release hu]
    cases o.has .reachableInCluster <;> simp [hr, hown]
  refine .quiet (hafter.trans hbefore.symm) (fun _ => hstand) fun hf => ?_
  rw [Table.has_of_get? ho, hroot] at hf
  cases hf

/-- An object outside the dissolved clusters stays as it is, and is not queued. -/
theorem worked_other (ho : t.get? g = some o) (hg : g ∉ gone)
    (hmember : ¬ ∃ r ∈ gone, o.owner = some r) :
    Worked g t t' (t.outstanding [] g) (t'.outstanding survivors g) [] := by
  obtain ⟨o', ho', hfate⟩ := b.table.kept g o ho
  rw [Object.fate, if_neg hg, if_neg hmember] at hfate
  subst hfate
  have hcount := count_survivors ho₀ hdistinct b ho
  rw [if_neg fun h => hmember h.1] at hcount
  have hkind : t'.kind g = t.kind g := (Table.kind_of_get? ho').trans (Table.kind_of_get? ho).symm
  refine .quiet ?_ (fun hs => ?_) fun hf _ => ?_
  · unfold Table.outstanding
    rw [hkind, hcount, Table.asleep_eq, Table.asleep_eq, ho, ho', List.count_nil]
  · rwa [Table.standalone_iff, hkind, ← Table.standalone_iff]
  · rwa [Table.has_of_get? ho', ← Table.has_of_get? ho]

omit ho₀ hdistinct in
theorem worked_stale (ho : t.get? g = none) :
    Worked g t t' (t.outstanding [] g) (t'.outstanding survivors g) [] := by
  have ho' := b.table.gone g ho
  have hcount : survivors.count g = 0 := by
    refine List.count_eq_zero_of_not_mem fun hm => ?_
    obtain ⟨o', hget, -⟩ := b.free g hm
    rw [ho'] at hget
    cases hget
  refine .quiet ?_ (fun hs => ?_) fun hf => ?_
  · simp [Table.outstanding, Table.kind, Table.asleep_eq, ho, ho', hcount]
  · obtain ⟨o, hget, -⟩ := hs
    rw [ho] at hget
    cases hget
  · simp [Table.has, ho] at hf

include hdead

/-- Dissolving clusters leaves waiting for each object what waited for it before. -/
theorem worked (g : Handle) :
    Worked g t t' (t.outstanding [] g) (t'.outstanding survivors g) [] := by
  by_cases hg : g ∈ gone
  · exact worked_root ho₀ hdistinct hdead b hg
  cases ho : t.get? g with
  | none => exact b.worked_stale ho
  | some o =>
    by_cases hmember : ∃ r ∈ gone, o.owner = some r
    · obtain ⟨r, hr, hown⟩ := hmember
      exact worked_member ho₀ hdistinct b ho hg hr hown
    · exact worked_other ho₀ hdistinct b ho hg hmember

end Scattered

end Clusters

end TracingHeap
