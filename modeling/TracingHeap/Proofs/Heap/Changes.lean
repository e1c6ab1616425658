import TracingHeap.Collector.Mutator
import TracingHeap.Proofs.Collection.Step

namespace TracingHeap

namespace Table

variable {t t' : Table} {id : ClassId} {name : String} {cells : Array Cell} {h : Handle}

structure Adds (t t' : Table) (o : Object) : Prop where
  tidy : t'.Tidy
  boundary : t'.boundary = t.boundary
  vacant : t.get? o.handle = none
  get : ∀ g, t'.get? g = if g = o.handle then some o else t.get? g

namespace Adds

variable {o p : Object} {g : Handle}

theorem isPermanent (a : t.Adds t' o) (g : Handle) : t'.isPermanent g = t.isPermanent g := by
  simp [Table.isPermanent, a.boundary]

theorem kept (a : t.Adds t' o) (hp : t.get? g = some p) : t'.get? g = some p := by
  rw [a.get, if_neg, hp]
  intro heq
  rw [heq, a.vacant] at hp
  cases hp

theorem back (a : t.Adds t' o) (hp : t'.get? g = some p) : p = o ∨ t.get? g = some p := by
  rw [a.get] at hp
  split at hp
  · exact .inl (Option.some.inj hp).symm
  · exact .inr hp

theorem awake (a : t.Adds t' o) (ha : t.Awake g) : t'.Awake g := by
  obtain ⟨q, hq, hu⟩ := ha
  exact ⟨q, a.kept hq, hu⟩

/-- A reference of the second table was there before, if the new object holds none. -/
theorem edge_back {s : Schema} {k : Strength} {x : Handle} (a : t.Adds t' o)
    (hslots : ∀ b g, o.slot? b ≠ some (some g)) (he : Edge s t' g k x) : Edge s t g k x := by
  obtain ⟨q, b, hq, hrep, hslot⟩ := he
  rcases a.back hq with heq | hq
  · rw [heq] at hslot
    exact absurd hslot (hslots b x)
  · exact ⟨q, b, hq, hrep, hslot⟩

theorem enrolled {cs : Clusters} (a : t.Adds t' o) (he : Enrolled t cs) (howner : o.owner = none)
    (hroot : o.has .clusterRoot = false) : Enrolled t' cs := by
  refine ⟨he.distinct, ?_, ?_, ?_, ?_, he.nodup, ?_⟩
  · intro c hc
    obtain ⟨q, hq, hrest⟩ := he.root c hc
    exact ⟨q, a.kept hq, hrest⟩
  · intro g q hq hf
    rcases a.back hq with heq | hq
    · rw [heq, hroot] at hf
      cases hf
    · exact he.registered g q hq hf
  · intro c hc m hm
    obtain ⟨q, hq, hrest⟩ := he.member c hc m hm
    exact ⟨q, a.kept hq, hrest⟩
  · intro g q r hq hown
    rcases a.back hq with heq | hq
    · rw [heq, howner] at hown
      cases hown
    · exact he.listed g q r hq hown
  · intro c hc m hm
    rw [a.isPermanent, a.isPermanent]
    exact he.pooled c hc m hm

end Adds

/-- A table with one more object, in a slot that is not free any more. -/
theorem Tidy.adds (ht : t.Tidy) {o : Object} (hvacant : t.get? o.handle = none)
    (hbound : t'.boundary = t.boundary)
    (hslot : ∀ i, t'.slot? i = if i = o.handle.index then some o else t.slot? i)
    (hfree : ∀ g ∈ t'.free, g ∈ t.free ∧ g ≠ o.handle) (hdistinct : t'.free.Nodup)
    (hsize : t.slots.size ≤ t'.slots.size) : t.Adds t' o := by
  have hget : ∀ g, t'.get? g = if g = o.handle then some o else t.get? g := by
    intro g
    rw [get?, hslot]
    by_cases he : g = o.handle
    · simp [he]
    · rw [if_neg he, if_neg fun hi => he (Handle.ext_index hi), get?]
  refine ⟨⟨?_, ?_, ?_, hdistinct, hbound ▸ ht.bounded⟩, hbound, hvacant, hget⟩
  · intro i q hq
    rw [hslot] at hq
    split at hq
    · rename_i he
      cases hq
      exact he.symm
    · exact ht.placed i q hq
  · intro g hg
    exact Nat.lt_of_lt_of_le (ht.room g (hfree g hg).1) hsize
  · intro g hg
    obtain ⟨hold, hne⟩ := hfree g hg
    rw [hget, if_neg hne]
    exact ht.vacant g hold

/-- A new object takes the latest of the freed slots, or a new one at the end of the table. -/
theorem allocate_cases (ha : t.allocate id name cells = (some h, t')) :
    (∃ rest, t.free = h :: rest ∧
      t' = ⟨t.slots.setIfInBounds h.index (some (.fresh h id name cells)), rest, t.boundary,
        t.live + 1⟩) ∨
    (t.free = [] ∧ h.index = t.slots.size ∧
      t' = ⟨t.slots.push (some (.fresh h id name cells)), [], t.boundary, t.live + 1⟩) := by
  unfold allocate at ha
  split at ha
  · rename_i h' rest hfree
    cases ha
    exact .inl ⟨rest, hfree, rfl⟩
  · rename_i hfree
    split at ha
    · rename_i h' hindex
      cases ha
      exact .inr ⟨hfree, Handle.ofIndex?_eq_some_iff.mp hindex, by rw [hfree]⟩
    · cases ha

/-- Only the slot of the new object changes. -/
theorem slot?_allocate (ht : t.Tidy) (ha : t.allocate id name cells = (some h, t')) (i : Nat) :
    t'.slot? i = if i = h.index then some (.fresh h id name cells) else t.slot? i := by
  obtain ⟨rest, hfree, rfl⟩ | ⟨hfree, hindex, rfl⟩ := allocate_cases ha
  · have hmem : h ∈ t.free := hfree ▸ List.mem_cons_self ..
    change (t.slots.setIfInBounds h.index _)[i]?.join = _
    rw [Array.getElem?_setIfInBounds]
    by_cases he : i = h.index
    · simp [he, ht.room h hmem]
    · simp [he, Ne.symm he, slot?]
  · change (t.slots.push _)[i]?.join = _
    rw [Array.getElem?_push, hindex]
    split <;> rfl

/-- A new object lies in a slot that was empty, and nothing else changes. -/
theorem allocate_some (ht : t.Tidy) (ha : t.allocate id name cells = (some h, t')) :
    t.Adds t' (.fresh h id name cells) := by
  have hslot := slot?_allocate ht ha
  obtain ⟨rest, hfree, rfl⟩ | ⟨hfree, hindex, rfl⟩ := allocate_cases ha
  · have hmem : h ∈ t.free := hfree ▸ List.mem_cons_self ..
    have hdistinct := ht.distinct
    rw [hfree] at hdistinct
    obtain ⟨hnot, hrest⟩ := List.nodup_cons.mp hdistinct
    have hfreed : ∀ g ∈ rest, g ∈ t.free ∧ g ≠ h :=
      fun g hg => ⟨hfree ▸ List.mem_cons_of_mem _ hg, fun he => hnot (he ▸ hg)⟩
    exact ht.adds (ht.vacant h hmem) rfl hslot hfreed hrest (by simp)
  · exact ht.adds (by simp [get?, slot?, Object.fresh, hindex]) rfl hslot
      (by simp) List.nodup_nil (by simp)

/-- The closed pool takes in every object but the one in the last slot that has a number. -/
theorem isPermanent_closePermanentPool {o : Object} (ho : t.get? h = some o)
    (hlast : h.index ≠ 4294967295) : t.closePermanentPool.isPermanent h = true := by
  have hlt := index_lt_size ho
  have hbound := h.lt
  have hmin : h.index < min t.slots.size 4294967295 := by omega
  exact decide_eq_true hmin

/-- What was outside the closed pool was outside the open one. -/
theorem Tidy.isPermanent_of_close (ht : t.Tidy) {o : Object} (ho : t.get? h = some o)
    (hp : t.closePermanentPool.isPermanent h = false) : t.isPermanent h = false := by
  have hbound := ht.bounded
  cases hopen : t.isPermanent h with
  | false => rfl
  | true =>
    have hlt : h.index < t.boundary := of_decide_eq_true hopen
    rw [isPermanent_closePermanentPool ho (by omega)] at hp
    cases hp

/-- A slot without a number for it stays empty. -/
theorem allocate_none (ht : t.Tidy) (ha : t.allocate id name cells = (none, t')) :
    t'.Tidy ∧ t'.boundary = t.boundary ∧ ∀ g, t'.get? g = t.get? g := by
  unfold allocate at ha
  split at ha
  · cases ha
  · rename_i hfree
    split at ha
    · cases ha
    · cases ha
      have hslot : ∀ i, (t.slots.push none)[i]?.join = t.slot? i := by
        intro i
        rw [Array.getElem?_push]
        split
        · rename_i he
          simp [slot?, he]
        · rfl
      refine ⟨⟨fun i o hi => ht.placed i o ((hslot i).symm.trans hi), ?_, ?_, ht.distinct,
        ht.bounded⟩, rfl, fun g => hslot g.index⟩
      · intro g hg
        rw [hfree] at hg
        cases hg
      · intro g hg
        rw [hfree] at hg
        cases hg

end Table

def Flags.collectorOwned : List Flag :=
  [.unreachable, .pendingKill, .rootSet, .clusterRoot, .reachableInCluster, .noStrongReference,
    .beginDestroyed, .finishDestroyed]

/-- A word of flags without any of the collector's own. -/
def Flags.IsForeign (m : Flags) : Prop := ∀ f ∈ Flags.collectorOwned, m.has f = false

theorem Flags.intersects_of_has {a m : Flags} {f : Flag} (ha : a.has f = true)
    (hm : m.has f = true) : a.intersects m = true := by
  have hbit : (a.bits &&& m.bits).getLsbD f.bit = true := by
    rw [BitVec.getLsbD_and]
    exact Bool.and_eq_true_iff.mpr ⟨ha, hm⟩
  apply bne_iff_ne.mpr
  intro hz
  rw [hz, BitVec.getLsbD_zero] at hbit
  cases hbit

namespace Object

/-- The object has changed in its flags only, and not in those that clusters and marks rely on. -/
structure Reflagged (o o' : Object) : Prop extends o.Same o' where
  cells : o'.cells = o.cells
  owner : o'.owner = o.owner
  root : o'.has .clusterRoot = o.has .clusterRoot
  unreachable : o'.isUnreachable = o.isUnreachable

theorem reflagged_insert (o : Object) {m : Flags} (hu : m.has .unreachable = false)
    (hr : m.has .clusterRoot = false) : o.Reflagged (o.insertFlags m) := by
  refine ⟨⟨rfl, rfl, rfl⟩, rfl, rfl, ?_, ?_⟩
  · simp [insertFlags, has, hr]
  · simp [insertFlags, isUnreachable, has, hu]

theorem reflagged_remove (o : Object) {m : Flags} (hu : m.has .unreachable = false)
    (hr : m.has .clusterRoot = false) : o.Reflagged (o.removeFlags m) := by
  refine ⟨⟨rfl, rfl, rfl⟩, rfl, rfl, ?_, ?_⟩
  · simp [removeFlags, has, hr]
  · simp [removeFlags, isUnreachable, has, hu]

end Object

namespace Settled

variable {s : Schema} {t : Table} {cs : Clusters} {h : Handle}

/-- A change of the flags of one object. -/
theorem reflag (hs : Settled s t cs) {f : Object → Object} (hf : ∀ o : Object, o.Reflagged (f o))
    (hkill : ∀ o, t.get? h = some o → (f o).has .rootSet = true → (f o).has .pendingKill = false) :
    Settled s (t.modify h f) cs := by
  have ev : t.Evolves (fun g (o o' : Object) => o.Reflagged o' ∧ (g = h → o' = f o) ∧ (g ≠ h → o' = o))
      (t.modify h f) := by
    apply Table.Evolves.modify fun o => (hf o).handle
    · intro o _
      exact ⟨hf o, fun _ => rfl, fun hne => absurd rfl hne⟩
    · intro g o _ hne
      exact ⟨⟨⟨rfl, rfl, rfl⟩, rfl, rfl, rfl, rfl⟩, fun he => absurd he hne, fun _ => rfl⟩
  have hthin : ∀ g (o o' : Object), (o.Reflagged o' ∧ (g = h → o' = f o) ∧ (g ≠ h → o' = o)) →
      o.Thins s (fun _ => False) o' :=
    fun _ _ _ hr => .of_cells hr.1.toSame hr.1.cells
  apply hs.evolves ev hthin (fun _ _ _ _ hr => hr.1.owner) (fun _ _ _ _ hr => hr.1.root)
    (fun _ _ _ _ hr => hr.1.unreachable)
  intro g o o' ho hr hk
  by_cases he : g = h
  · subst he
    rw [hr.2.1 rfl]
    exact hkill o ho
  · rw [hr.2.2 he]
    exact hk

theorem push (hs : Settled s t cs) {e : ClassEntry} (he : s.Built s.size e)
    (hspec : e.spec.Honest) : Settled ⟨s.classes.push e⟩ t cs := by
  have ho := hs.orderly
  have hedge : ∀ h k g, Edge ⟨s.classes.push e⟩ t h k g → Edge s t h k g := by
    intro h k g hedge
    obtain ⟨o, a, hget, hrep, hslot⟩ := hedge
    exact ⟨o, a, hget, ((ho.fits h o hget).reports_push e).mp hrep, hslot⟩
  refine ⟨⟨ho.regular.push he hspec, ho.tidy, ?_, ho.enrolled, ?_, ho.unkilled⟩, hs.roots,
    hs.mutables, ?_⟩
  · intro h o hget
    exact (ho.fits h o hget).push ho.regular e
  · intro c hc hp
    have htr := ho.tracked c hc hp
    exact ⟨htr.referenced, htr.mutables, fun h hh g he => htr.covered h hh g (hedge h _ g he)⟩
  · intro h k g he
    exact hs.linked h k g (hedge h k g he)

/-- A table with the same objects. -/
theorem same (hs : Settled s t cs) {t' : Table} (htidy : t'.Tidy)
    (hbound : t'.boundary = t.boundary) (hget : ∀ g, t'.get? g = t.get? g) : Settled s t' cs := by
  have ev : t.Evolves (fun _ o o' => o' = o) t' :=
    ⟨hbound, fun _ => htidy, fun g hn => (hget g).trans hn,
      fun g o ho => ⟨o, (hget g).trans ho, rfl⟩⟩
  have hthin : ∀ (g : Handle) (o o' : Object), o' = o → o.Thins s (fun _ => False) o' :=
    fun _ o _ he => he.symm ▸ .refl o
  apply hs.evolves ev hthin
  · exact fun _ _ _ _ he => congrArg Object.owner he
  · exact fun _ _ _ _ he => he ▸ rfl
  · exact fun _ _ _ _ he => congrArg Object.isUnreachable he
  · exact fun _ _ _ _ he hk => he ▸ hk

/-- An object without flags, owner and references joins the heap. -/
theorem extend (hs : Settled s t cs) {t' : Table} {o : Object} (a : t.Adds t' o) (hfit : s.Fits o)
    (howner : o.owner = none) (hflags : ∀ f, o.has f = false)
    (hslots : ∀ b g, o.slot? b ≠ some (some g)) : Settled s t' cs := by
  have ho := hs.orderly
  have he := ho.enrolled
  refine ⟨⟨ho.regular, a.tidy, ?_, a.enrolled he howner (hflags _), ?_, ?_⟩,
    fun c hc => a.awake (hs.roots c hc), ?_, ?_⟩
  · intro g q hq
    rcases a.back hq with heq | hq
    · exact heq ▸ hfit
    · exact ho.fits g q hq
  · intro c hc hp
    rw [a.isPermanent] at hp
    have htr := ho.tracked c hc hp
    refine ⟨htr.referenced, fun m hm => ?_, fun g hg x hx hpx hout => ?_⟩
    · obtain ⟨⟨q, hq⟩, hpm⟩ := htr.mutables m hm
      exact ⟨⟨q, a.kept hq⟩, (a.isPermanent m).trans hpm⟩
    · rw [a.isPermanent] at hpx
      rcases htr.covered g hg x (a.edge_back hslots hx) hpx hout with hm | ⟨r, hr, hroot⟩
      · exact .inl hm
      · refine .inr ⟨r, hr, ?_⟩
        obtain ⟨d, hd, -, hxd⟩ := he.cluster_of_rootOf hroot
        obtain ⟨q, hq⟩ := he.live_objects hd hxd
        rw [Table.rootOf_eq (a.kept hq), ← Table.rootOf_eq hq, hroot]
  · intro g q hq hr
    rcases a.back hq with heq | hq
    · rw [heq, hflags] at hr
      cases hr
    · exact ho.unkilled g q hq hr
  · intro c hc hp m hm
    rw [a.isPermanent] at hp
    exact a.awake (hs.mutables c hc hp m hm)
  · intro g k x hx ha hheed
    rw [a.isPermanent] at hheed
    have hold := a.edge_back hslots hx
    have hsource := hold
    obtain ⟨q, b, hq, -⟩ := hsource
    exact a.awake (hs.linked g k x hold ⟨q, hq, ha.of_get? (a.kept hq)⟩ hheed)

/-- The pool may be closed, unless it would take in a part of a cluster only. -/
theorem close (hs : Settled s t cs)
    (hlast : ∀ o, t.slot? 4294967295 = some o → o.owner = none ∧ o.has .clusterRoot = false) :
    Settled s t.closePermanentPool cs := by
  have ho := hs.orderly
  have he := ho.enrolled
  have htidy : t.closePermanentPool.Tidy := by
    have hsub : ∀ h ∈ t.closePermanentPool.free, h ∈ t.free :=
      fun h hh => (List.mem_filter.mp hh).1
    exact ⟨ho.tidy.placed, fun h hh => ho.tidy.room h (hsub h hh),
      fun h hh => ho.tidy.vacant h (hsub h hh), ho.tidy.distinct.filter _, Nat.min_le_right _ _⟩
  have hroot : ∀ c ∈ cs.list, t.closePermanentPool.isPermanent c.root = true := by
    intro c hc
    obtain ⟨o, hget, hflag, -⟩ := he.root c hc
    refine Table.isPermanent_closePermanentPool hget fun hi => ?_
    rw [(hlast o (hi ▸ hget)).2] at hflag
    cases hflag
  have hmember : ∀ c ∈ cs.list, ∀ m ∈ c.members, t.closePermanentPool.isPermanent m = true := by
    intro c hc m hm
    obtain ⟨o, hget, howner, -⟩ := he.member c hc m hm
    refine Table.isPermanent_closePermanentPool hget fun hi => ?_
    rw [(hlast o (hi ▸ hget)).1] at howner
    cases howner
  have hnone : ∀ c ∈ cs.list, t.closePermanentPool.isPermanent c.root = false → False := by
    intro c hc hp
    rw [hroot c hc] at hp
    cases hp
  refine ⟨⟨ho.regular, htidy, ho.fits, ⟨he.distinct, he.root, he.registered, he.member, he.listed,
    he.nodup, fun c hc m hm => (hmember c hc m hm).trans (hroot c hc).symm⟩,
    fun c hc hp => (hnone c hc hp).elim, ho.unkilled⟩, hs.roots,
    fun c hc hp => (hnone c hc hp).elim, ?_⟩
  intro h k g hedge ha hheed
  obtain ⟨o, a, hget, hrep, hslot⟩ := hedge
  exact hs.linked h k g ⟨o, a, hget, hrep, hslot⟩ ha
    (hheed.imp_right (ho.tidy.isPermanent_of_close hget))

end Settled

end TracingHeap
