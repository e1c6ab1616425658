import TracingHeap.Proofs.Scratch.Moves
import TracingHeap.Proofs.Mark.EdgeWork
import TracingHeap.Proofs.Trace.References
import TracingHeap.Proofs.Schema.ListingOrder
import TracingHeap.Proofs.Collection.Reachability

namespace TracingHeap

/-- Whenever both calls come back, `R` relates their results. -/
def Meets {α β : Type} (R : α → β → Prop) (x : Except Fault α) (y : Except Fault β) : Prop :=
  ∀ a b, x = .ok a → y = .ok b → R a b

namespace Meets

variable {α β γ δ ι κ : Type} {R : α → β → Prop} {S : γ → δ → Prop} {x : Except Fault α}
  {y : Except Fault β}

theorem ok {a : α} {b : β} (h : R a b) : Meets R (.ok a) (.ok b) := by
  rintro _ _ ⟨⟩ ⟨⟩
  exact h

theorem left_fails {f : Fault} : Meets R (.error f) y := by
  rintro _ _ ⟨⟩

theorem right_fails {f : Fault} : Meets R x (.error f) := by
  rintro _ _ _ ⟨⟩

theorem bind {f : α → Except Fault γ} {g : β → Except Fault δ} (h : Meets R x y)
    (hfg : ∀ a b, R a b → Meets S (f a) (g b)) : Meets S (x >>= f) (y >>= g) := by
  intro c d hc hd
  obtain ⟨a, ha, hc⟩ := except_bind_ok hc
  obtain ⟨b, hb, hd⟩ := except_bind_ok hd
  exact hfg a b (h a b ha hb) c d hc hd

/-- Two folds over items that agree in what counts. -/
theorem foldlM (key : ι → κ) {f : α → ι → Except Fault α} {g : β → ι → Except Fault β} {l : List ι} :
    ∀ {l' : List ι}, l'.map key = l.map key →
      (∀ i ∈ l, ∀ j, key j = key i → ∀ a b, R a b → Meets R (f a i) (g b j)) →
        ∀ {a : α} {b : β}, R a b → Meets R (l.foldlM f a) (l'.foldlM g b) := by
  induction l with
  | nil =>
    intro l' hl _ a b h
    cases List.map_eq_nil_iff.mp hl
    exact .ok h
  | cons i rest ih =>
    intro l' hl step a b h
    obtain ⟨j, rest', rfl, hkey, hrest⟩ := List.map_eq_cons_iff.mp hl
    rw [List.foldlM_cons, List.foldlM_cons]
    exact (step i (List.mem_cons_self ..) j hkey a b h).bind fun _ _ =>
      ih hrest fun k hk => step k (List.mem_cons_of_mem _ hk)

theorem foldlM_same {f : α → ι → Except Fault α} {g : β → ι → Except Fault β} {l : List ι}
    (step : ∀ i ∈ l, ∀ a b, R a b → Meets R (f a i) (g b i)) {a : α} {b : β} (h : R a b) :
    Meets R (l.foldlM f a) (l.foldlM g b) := by
  refine foldlM id rfl (fun i hi j he => ?_) h
  obtain rfl : j = i := he
  exact step j hi

end Meets

namespace ScratchPool

variable {stock : Int} {p p' : ScratchPool}

/-- As many lists are out of the second pool as of the first, and it has made a new one only when the
first has and there were `stock` already. -/
structure Ahead (stock : Int) (p p' : ScratchPool) : Prop where
  inUse : p'.inUse = p.inUse
  stock : p'.stock = max stock p.stock

theorem Ahead.acquire (a : p.Ahead stock p') : p.acquire.Ahead stock p'.acquire := by
  refine ⟨?_, ?_⟩
  · rw [ScratchPool.acquire, ScratchPool.acquire, a.inUse]
  · rw [stock_acquire_eq, stock_acquire_eq, a.inUse, a.stock]
    omega

theorem Ahead.release (a : p.Ahead stock p') : p.release.Ahead stock p'.release := by
  refine ⟨?_, ?_⟩
  · rw [ScratchPool.release, ScratchPool.release, a.inUse]
  · rw [stock_release, stock_release, a.stock]

end ScratchPool

namespace Table

variable {s : Schema} {t t' v : Table} {ks : Clusters} {g h r : Handle} {o : Object} {x : Site}

def Aims (t : Table) (x : Site) (g : Handle) : Prop :=
  t.slotAt? x = some (some g) ∧ t.isPermanent g = false ∧
    ∃ o, t.get? g = some o ∧ o.has .pendingKill = false

def Rooted (t : Table) (h : Handle) : Prop := t.Collectable h ∧ t.has h .clusterRoot = true

theorem Aims.collectable (a : t.Aims x g) : t.Collectable g := by
  obtain ⟨-, hp, o, ho, -⟩ := a
  exact ⟨⟨o, ho⟩, hp⟩

theorem Collectable.of_kind (hh : t.Collectable h) (hkind : t'.kind h = t.kind h)
    (hp : t'.isPermanent h = t.isPermanent h) : t'.Collectable h := by
  obtain ⟨⟨o, ho⟩, hperm⟩ := hh
  refine ⟨?_, hp.trans hperm⟩
  cases ho' : t'.get? h with
  | none => simp [kind, ho, ho'] at hkind
  | some o' => exact ⟨o', rfl⟩

/-- The table shows a trace what the heap `v` with the clusters `ks` does, as far as it goes by the
objects that are there to be claimed. -/
structure Shows (s : Schema) (t v : Table) (ks : Clusters) : Prop where
  tidy : t.Tidy
  isPermanent : ∀ h, t.isPermanent h = v.isPermanent h
  kind : ∀ h, v.Collectable h → t.kind h = v.kind h
  fits : ∀ h o, v.Collectable h → t.get? h = some o → s.Fits o
  listed : ∀ h p o, v.Collectable h → v.get? h = some p → t.get? h = some o →
    o.classId = p.classId ∧ s.listed o = s.listed p
  aims : ∀ h p a, v.Collectable h → v.get? h = some p → s.Reports p a .strong →
    ∀ g, t.Aims ⟨h, a⟩ g ↔ v.Aims ⟨h, a⟩ g
  calm : ∀ c ∈ ks.list, v.isPermanent c.root = false → ∀ r ∈ c.referenced,
    v.isPermanent r = true → t.isUnreachable r = false

/-- What a trace does to a table does not change where its slots lead. -/
theorem Advances.aims (a : t.Advances s t') : t'.Aims x g ↔ t.Aims x g := by
  have hkept : (∃ o, t'.get? g = some o ∧ o.has .pendingKill = false) ↔
      ∃ o, t.get? g = some o ∧ o.has .pendingKill = false := by
    constructor
    · rintro ⟨o', ho', hk⟩
      obtain ⟨o, ho, hr, -⟩ := Evolves.back a ho'
      exact ⟨o, ho, (hr.flag _ (by decide) (by decide) (by decide)).symm.trans hk⟩
    · rintro ⟨o, ho, hk⟩
      obtain ⟨o', ho', hr⟩ := a.kept ho
      exact ⟨o', ho', (hr.flag _ (by decide) (by decide) (by decide)).trans hk⟩
  rw [Aims, Aims, a.isPermanent, hkept]
  refine and_congr_left fun ⟨_, o, ho, hk⟩ =>
    ⟨Evolves.slotAt?_back a fun _ _ _ hr => hr.1.toThins, fun hslot => ?_⟩
  obtain ⟨h, b⟩ := x
  cases hq : t.get? h with
  | none => simp [slotAt?, hq] at hslot
  | some q =>
    obtain ⟨q', hq', hr⟩ := a.kept hq
    rw [slotAt?_eq hq] at hslot
    rw [slotAt?_eq hq']
    exact hr.slot_stays hslot (by simp [has_of_get? ho, hk])

/-- What a trace does to a table does not change what it shows. -/
theorem Shows.advances (b : t.Shows s v ks) (hs : s.Layered) (hord : s.Ordered)
    (a : t.Advances s t') : t'.Shows s v ks := by
  have hkind : ∀ h, t'.kind h = t.kind h := by
    intro h
    unfold Table.kind
    cases ho : t.get? h with
    | none => rw [Evolves.gone a h ho]
    | some o =>
      obtain ⟨o', ho', hr⟩ := a.kept ho
      rw [ho', Option.map_some, Option.map_some, hr.owner,
        hr.flag _ (by decide) (by decide) (by decide)]
  refine ⟨Evolves.tidy a b.tidy, fun h => (a.isPermanent h).trans (b.isPermanent h),
    fun h hh => (hkind h).trans (b.kind h hh), fun h o' hh ho' => ?_,
    fun h p o' hh hp ho' => ?_, fun h p x hh hp hm g => a.aims.trans (b.aims h p x hh hp hm g),
    fun c hc hpc r hr hp => ?_⟩
  · obtain ⟨o, ho, hr, -⟩ := Evolves.back a ho'
    exact hr.fits (b.fits h o hh ho)
  · obtain ⟨o, ho, hr, -⟩ := Evolves.back a ho'
    obtain ⟨hclass, hlisted⟩ := b.listed h p o hh hp ho
    exact ⟨hr.classId.trans hclass,
      (hord.listed_eq hs (b.fits h o hh ho) hr.toSame hr.emptied).trans hlisted⟩
  · have hcalm := b.calm c hc hpc r hr hp
    cases ho : t.get? r with
    | none => simp [isUnreachable, has, Evolves.gone a r ho]
    | some o =>
      obtain ⟨o', ho', hadv⟩ := a.kept ho
      rw [isUnreachable_of_get? ho] at hcalm
      rw [isUnreachable_of_get? ho', hadv.awake hcalm]

structure Still (s : Schema) (t t' : Table) : Prop where
  advances : t.Advances s t'
  unreachable : ∀ h, t'.isUnreachable h = t.isUnreachable h
  inCluster : ∀ h, t'.has h .reachableInCluster = t.has h .reachableInCluster

theorem Still.refl (t : Table) : t.Still s t := ⟨.refl t, fun _ => rfl, fun _ => rfl⟩

theorem has_modify_self (ho : t.get? h = some o) (f : Object → Object) (flag : Flag) :
    (t.modify h f).has h flag = (f o).has flag :=
  has_of_get? (by rw [get?_modify_self, ho]; rfl) flag

/-- A change of one object that leaves the two flags alone. -/
theorem Still.modify {f : Object → Object} (hp : t.isPermanent h = false)
    (hf : ∀ o, (f o).handle = o.handle)
    (hadv : ∀ o, t.get? h = some o → o.Advances s (fun g => t.has g .pendingKill = true) (f o))
    (hflags : ∀ o : Object, (f o).has .unreachable = o.has .unreachable ∧
      (f o).has .reachableInCluster = o.has .reachableInCluster) : t.Still s (t.modify h f) := by
  have hsame : ∀ flag, (∀ o, (f o).has flag = o.has flag) →
      ∀ g, (t.modify h f).has g flag = t.has g flag := by
    intro flag hflag g
    by_cases he : g = h
    · subst he
      cases ho : t.get? g with
      | none => simp [has, get?_modify_self, ho]
      | some o => rw [has_modify_self ho, hflag, has_of_get? ho]
    · simp only [has, get?_modify_of_ne t he f]
  exact ⟨.modify hp hf hadv, hsame _ fun o => (hflags o).1, hsame _ fun o => (hflags o).2⟩

end Table

/-- What two traces see of one object. -/
structure Object.Twin (o o' : Object) : Prop where
  owner : o'.owner = o.owner
  root : o'.has .clusterRoot = o.has .clusterRoot
  unreachable : o'.isUnreachable = o.isUnreachable
  inCluster : o'.has .reachableInCluster = o.has .reachableInCluster

/-- Two traces of what the heap `v` shows have claimed the same in their tables. -/
structure Table.Abreast (s : Schema) (v : Table) (ks : Clusters) (t t' : Table) : Prop where
  left : t.Shows s v ks
  right : t'.Shows s v ks
  unreachable : ∀ h, v.Collectable h → t'.isUnreachable h = t.isUnreachable h
  inCluster : ∀ h, v.Collectable h → t'.has h .reachableInCluster = t.has h .reachableInCluster

namespace Table.Abreast

variable {s : Schema} {v t t' u u' : Table} {ks : Clusters} {h : Handle}
  (b : Table.Abreast s v ks t t')
include b

/-- An object that may be claimed is in both tables. -/
theorem twins (hh : v.Collectable h) : ∃ p o o', v.get? h = some p ∧ t.get? h = some o ∧
    t'.get? h = some o' ∧ o.owner = p.owner ∧ o.has .clusterRoot = p.has .clusterRoot ∧
      o.Twin o' := by
  obtain ⟨⟨p, hp⟩, -⟩ := id hh
  have hkind := b.left.kind h hh
  have hkind' := b.right.kind h hh
  have hu := b.unreachable h hh
  have hr := b.inCluster h hh
  obtain ⟨⟨o, ho⟩, -⟩ := hh.of_kind hkind (b.left.isPermanent h)
  obtain ⟨⟨o', ho'⟩, -⟩ := hh.of_kind hkind' (b.right.isPermanent h)
  rw [isUnreachable_of_get? ho, isUnreachable_of_get? ho'] at hu
  rw [has_of_get? ho, has_of_get? ho'] at hr
  simp only [Table.kind, ho, ho', hp, Option.map_some, Option.some.injEq, Prod.mk.injEq] at hkind hkind'
  exact ⟨p, o, o', hp, ho, ho', hkind.1, hkind.2, hkind'.1.trans hkind.1.symm,
    hkind'.2.trans hkind.2.symm, hu, hr⟩

variable (hs : s.Layered) (hord : s.Ordered)
include hs hord

/-- Each trace has gone on by itself. -/
theorem still (a : t.Still s u) (a' : t'.Still s u') : Table.Abreast s v ks u u' := by
  refine ⟨b.left.advances hs hord a.advances, b.right.advances hs hord a'.advances,
    fun h hh => ?_, fun h hh => ?_⟩
  · rw [a.unreachable, a'.unreachable, b.unreachable h hh]
  · rw [a.inCluster, a'.inCluster, b.inCluster h hh]

/-- Both traces change an object in the same way. -/
theorem modify (hh : v.Collectable h) {f : Object → Object} (hf : ∀ o, (f o).handle = o.handle)
    (hadv : ∀ (dead : Handle → Prop) (o : Object), o.Advances s dead (f o))
    (hflags : ∀ o o' : Object, o.Twin o' → (f o).Twin (f o')) :
    Table.Abreast s v ks (t.modify h f) (t'.modify h f) := by
  obtain ⟨p, o, o', -, ho, ho', -, -, htwin⟩ := b.twins hh
  obtain ⟨-, hperm⟩ := hh
  have hleft : t.Advances s (t.modify h f) :=
    .modify ((b.left.isPermanent h).trans hperm) hf fun q _ => hadv _ q
  have hright : t'.Advances s (t'.modify h f) :=
    .modify ((b.right.isPermanent h).trans hperm) hf fun q _ => hadv _ q
  have hsame := hflags o o' htwin
  refine ⟨b.left.advances hs hord hleft, b.right.advances hs hord hright, fun g hg => ?_,
    fun g hg => ?_⟩
  · by_cases he : g = h
    · subst he
      exact (has_modify_self ho' f _).trans (hsame.unreachable.trans (has_modify_self ho f _).symm)
    · have hold := b.unreachable g hg
      simpa only [Table.isUnreachable, Table.has, get?_modify_of_ne _ he] using hold
  · by_cases he : g = h
    · subst he
      rw [has_modify_self ho', has_modify_self ho, hsame.inCluster]
    · have hold := b.inCluster g hg
      simpa only [Table.has, get?_modify_of_ne _ he] using hold

theorem clearFlag (hh : v.Collectable h) {f : Flag} (hf : f = .unreachable ∨ f = .noStrongReference) :
    Table.Abreast s v ks (t.clearFlag h f) (t'.clearFlag h f) := by
  refine b.modify hs hord hh (fun _ => rfl) (fun _ o => .clearFlag o hf) fun o o' ht => ?_
  exact ⟨ht.owner, by simp [ht.root], by
    have hu := ht.unreachable
    simp only [Object.isUnreachable] at hu ⊢
    simp [hu], by simp [ht.inCluster]⟩

theorem setInCluster (hh : v.Collectable h) :
    Table.Abreast s v ks (t.setFlag h .reachableInCluster) (t'.setFlag h .reachableInCluster) := by
  refine b.modify hs hord hh (fun _ => rfl) (fun _ o => .setInCluster o) fun o o' ht => ?_
  exact ⟨ht.owner, by simp [ht.root], by
    have hu := ht.unreachable
    simp only [Object.isUnreachable] at hu ⊢
    simp [hu], by simp⟩

end Table.Abreast

/-- A step of a task that claims nothing, flags nothing, queues nothing and leaves the scratch lists
alone. -/
structure Marking.Still (s : Schema) (m m' : Marking) : Prop where
  table : m.table.Still s m'.table
  reached : m'.output.reached = m.output.reached
  pool : m'.pool = m.pool

theorem Marking.Still.refl {s : Schema} (m : Marking) : m.Still s m := ⟨.refl _, rfl, rfl⟩

structure Marking.Abreast (s : Schema) (v : Table) (ks : Clusters) (stock : Int) (m m' : Marking) :
    Prop where
  table : Table.Abreast s v ks m.table m'.table
  reached : m'.output.reached = m.output.reached
  queued : ∀ h ∈ m.output.reached, v.Collectable h
  pool : m.pool.Ahead stock m'.pool

namespace Marking.Abreast

variable {s : Schema} {v : Table} {ks : Clusters} {stock : Int} {m m' : Marking} {h : Handle}
  (b : Marking.Abreast s v ks stock m m')
include b

theorem acquire : Marking.Abreast s v ks stock { m with pool := m.pool.acquire }
    { m' with pool := m'.pool.acquire } :=
  ⟨b.table, b.reached, b.queued, b.pool.acquire⟩

theorem release : Marking.Abreast s v ks stock { m with pool := m.pool.release }
    { m' with pool := m'.pool.release } :=
  ⟨b.table, b.reached, b.queued, b.pool.release⟩

theorem countScanned : Marking.Abreast s v ks stock m.countScanned m'.countScanned :=
  ⟨b.table, b.reached, b.queued, b.pool⟩

theorem reach (hh : v.Collectable h) : Marking.Abreast s v ks stock (m.reach h) (m'.reach h) := by
  refine ⟨b.table, ?_, fun g hg => ?_, b.pool⟩
  · rw [Marking.reach, Marking.reach, b.reached]
  · rcases Array.mem_push.mp hg with hg | rfl
    · exact b.queued g hg
    · exact hh

variable (hs : s.Layered) (hord : s.Ordered)
include hs hord

/-- Each task has gone on by itself. -/
theorem still {n n' : Marking} (a : m.Still s n) (a' : m'.Still s n') :
    Marking.Abreast s v ks stock n n' := by
  refine ⟨b.table.still hs hord a.table a'.table, ?_, ?_, ?_⟩
  · rw [a.reached, a'.reached, b.reached]
  · rw [a.reached]
    exact b.queued
  · rw [a.pool, a'.pool]
    exact b.pool

theorem clearFlag (hh : v.Collectable h) {f : Flag} (hf : f = .unreachable ∨ f = .noStrongReference) :
    Marking.Abreast s v ks stock (m.clearFlag h f) (m'.clearFlag h f) :=
  ⟨b.table.clearFlag hs hord hh hf, b.reached, b.queued, b.pool⟩

theorem claim (hh : v.Collectable h) : Marking.Abreast s v ks stock (m.claim h) (m'.claim h) :=
  (b.clearFlag hs hord hh (.inl rfl)).clearFlag hs hord hh (.inr rfl)

theorem setInCluster (hh : v.Collectable h) : Marking.Abreast s v ks stock
    (m.setFlag h .reachableInCluster) (m'.setFlag h .reachableInCluster) :=
  ⟨b.table.setInCluster hs hord hh, b.reached, b.queued, b.pool⟩

end Marking.Abreast

end TracingHeap
